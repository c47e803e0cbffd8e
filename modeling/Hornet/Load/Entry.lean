import Hornet.Bpf.Layout
import Hornet.Load.Link
import Hornet.Track.Run

/-!
The entry of an analysis. Decoding and linking note where the entry function
starts, the graph and the tracker start at the first instruction. What is
analysed is the requested function when the two are the same.
-/

namespace Hornet

inductive AnalyzeError where
  | link (e : LinkError)
  | cfg (e : CfgError)
  | track (e : TrackError)

def MapDef.info (m : MapDef) : MapInfo :=
  { name := m.name.getD "", type := m.type, keySize := m.keySize, valueSize := m.valueSize
    maxEntries := m.maxEntries }

def Linked.program (out : Linked) : Program :=
  { instrs := out.instrs, maps := out.maps.map MapDef.info, progs := out.progs
    rodata := out.rodata }

/-- An analysed program: what was linked, its graph, and the tracked blocks. -/
structure Analyzed where
  out : Linked
  cfg : List Block
  blocks : List Block

/-- The stages of an analysis after decoding. -/
def analyze (loads : List Load) (tails : List TailSpec) : Except AnalyzeError Analyzed := do
  let out ← (link loads tails).mapError .link
  let cfg ← (buildCfg out.instrs out.progs).mapError .cfg
  let t ← (track out.program cfg).mapError .track
  pure { out := out, cfg := cfg, blocks := t.blocks }

theorem mapError_eq_ok {ε ε' α : Type} {x : Except ε α} {f : ε → ε'} {a : α} :
    x.mapError f = .ok a ↔ x = .ok a := by
  cases x <;> simp [Except.mapError]

theorem analyze_ok {loads : List Load} {tails : List TailSpec} {a : Analyzed} :
    analyze loads tails = .ok a ↔
      link loads tails = .ok a.out ∧ buildCfg a.out.instrs a.out.progs = .ok a.cfg ∧
        ∃ t, track a.out.program a.cfg = .ok t ∧ t.blocks = a.blocks := by
  simp only [analyze, Lib.bind_eq_ok, mapError_eq_ok]
  constructor
  · rintro ⟨out, hout, cfg, hcfg, t, ht, h⟩
    cases h
    exact ⟨hout, hcfg, t, ht, rfl⟩
  · rintro ⟨hout, hcfg, t, ht, hblocks⟩
    exact ⟨_, hout, _, hcfg, t, ht, by rw [hblocks]; rfl⟩

/-! ## What is tracked is reached -/

section Reached

variable {main : Load} {rest : List Load} {tails : List TailSpec} {a : Analyzed}

theorem zero_mem_done {P : Program} {cfg : List Block} {t : Tracker} {done : List Nat}
    (h : TrackRun P cfg t done) : 0 ∈ done := by
  induction h with
  | first => simp
  | next _ _ _ _ _ ih => exact List.mem_append_left _ ih

/-- Control enters the part of the main object that it does not reach from the first
instruction only from a callee. -/
def CalleeEnters (main : Load) (out : Linked) : Prop :=
  ∃ i j, main.instrs.length ≤ i ∧ j < main.instrs.length ∧ Flows out.instrs out.progs i j ∧
    ¬ Reaches out.instrs out.progs 0 j

/-- The blocks of the main object that have been tracked are reached. -/
theorem reaches_of_trackRun (hlink : link (main :: rest) tails = .ok a.out)
    (hcfg : buildCfg a.out.instrs a.out.progs = .ok a.cfg) (hcallee : ¬ CalleeEnters main a.out)
    {t : Tracker} {done : List Nat} (hrun : TrackRun a.out.program a.cfg t done) :
    ∀ no ∈ done, ∀ b, a.cfg[no]? = some b → b.start < main.instrs.length →
      Reaches a.out.instrs a.out.progs 0 b.start := by
  obtain ⟨-, hmain, hregions⟩ := link_main hlink
  have hfirst : ∀ b, a.cfg[0]? = some b → b.start = 0 := fun b hb =>
    Option.some_inj.mp ((sited_buildCfg hcfg hb).start.symm.trans (leaders_zero _ _))
  induction hrun with
  | first h =>
      intro no hno b hb _
      obtain rfl := List.mem_singleton.mp hno
      rw [hfirst b hb]
  | @next t t' done no b hrun hnew hb hpreds h ih =>
      intro no' hno' b' hb' hstart
      rcases List.mem_append.mp hno' with hold | hlast
      · exact ih no' hold b' hb' hstart
      · obtain rfl := List.mem_singleton.mp hlast
        obtain rfl := Option.some_inj.mp (hb.symm.trans hb')
        obtain ⟨b₀, -, hb₀, -, -, entered, hentered, -⟩ := blocks_trackBlock h
        rw [hrun.waiting.2 no' hnew] at hb₀
        obtain rfl := Option.some_inj.mp (hb.symm.trans hb₀)
        have hsited := sited_buildCfg hcfg hb
        rcases enter_ok hentered with hzero | hentry | ⟨p, hp, hplt⟩
        · have hnum := (wellLinked_buildCfg hcfg).num no' b hb
          rw [show b.num = 0 from hzero] at hnum
          exact absurd (hnum ▸ zero_mem_done hrun) hnew
        · obtain ⟨r, hr⟩ := Option.isSome_iff_exists.mp hentry
          obtain ⟨hmem, hrstart, hne⟩ := hsited.entry r hr
          have hpos := leaders_lt (leaders_zero _ _) hsited.start (Nat.pos_of_ne_zero hne)
          rcases (hregions r hmem).1 with hzero | hbehind
          · omega
          · omega
        · obtain ⟨pb, hpb, hedge⟩ := edge_of_mem_preds hcfg hb hp
          have hflow := flows_of_edge hcfg hpb hb hedge
          by_cases hend : pb.end < main.instrs.length
          · have hle := start_le_end hcfg (fun r hr => (hregions r hr).2) hpb
            have hplt' := (List.getElem?_eq_some_iff.mp hpb).1
            have hreach := ih p (hpreds p hp hplt') pb hpb (by omega)
            exact (hreach.trans (reaches_in_block hcfg hpb hle (Nat.le_refl _))).tail hflow
          · by_contra hnot
            exact hcallee ⟨pb.end, b.start, by omega, hstart, hflow, hnot⟩

/-- In a tracked program control reaches every instruction of the main object from
the first one, unless a callee enters the rest. -/
theorem reaches_of_analyze (h : analyze (main :: rest) tails = .ok a)
    (hcallee : ¬ CalleeEnters main a.out) {i : Nat} (hi : i < main.instrs.length) :
    Reaches a.out.instrs a.out.progs 0 i := by
  obtain ⟨hlink, hcfg, t, ht, -⟩ := analyze_ok.mp h
  obtain ⟨-, hmain, -⟩ := link_main hlink
  obtain ⟨all, hrun, hall⟩ := track_run ht
  obtain ⟨j, b, hb, hstart, hend, -⟩ := exists_block hcfg (by omega : i < a.out.instrs.length)
  have hjlt := (List.getElem?_eq_some_iff.mp hb).1
  have hreach := reaches_of_trackRun hlink hcfg hcallee hrun j (hall j hjlt) b hb (by omega)
  exact hreach.trans (reaches_in_block hcfg hb hstart hend)

end Reached

/-- An object whose section holds functions that return the given values, one after
the other, and in which the function at `entryIdx` is requested. -/
def returnsLoad (values : List Int) (entryIdx : Nat) : Load :=
  { instrs := values.flatMap fun v =>
      [{ Instr.nop with opcodeClass := .ALU64, aluCode := .MOV, imm := v },
        { Instr.nop with opcodeClass := .JMP, jmpCode := .EXIT }]
    maps := []
    rodata := []
    bss := Lib.Dict.empty
    entry := "xdp_prog"
    entryIdx := entryIdx
    path := "returns.o"
    sectionName := "xdp" }

theorem reaches_of_analyze_exit :
    ∃ a, analyze [returnsLoad [2] 0] [] = .ok a ∧ Reaches a.out.instrs a.out.progs 0 1 := by
  obtain ⟨a, ha, hlength⟩ : ∃ a, analyze [returnsLoad [2] 0] [] = .ok a ∧
      a.out.instrs.length = 2 := ⟨_, rfl, rfl⟩
  refine ⟨a, ha, reaches_of_analyze ha ?_ (by decide)⟩
  rintro ⟨i, j, hi, -, hflow, -⟩
  have hlt := flows_lt hflow
  have hmain : (returnsLoad [2] 0).instrs.length = 2 := rfl
  omega

/-! ## The requested function -/

/-- Block 0 starts at the entry, and the analysis ends the same way, in the same tracked
blocks or with the same exception, when instructions of the main object that control does
not reach from the entry are exchanged or, at the end of the section, left out. -/
structure EntryAnalysed (main : Load) (rest : List Load) (tails : List TailSpec) (out : Linked)
    (cfg : List Block) : Prop where
  start : ∀ b, cfg[0]? = some b → b.start = main.entryIdx
  independent : ∀ instrs' : List Instr, instrs'.length ≤ main.instrs.length →
    (∀ i, Reaches out.instrs out.progs main.entryIdx i → instrs'[i]? = main.instrs[i]?) →
    (analyze ({ main with instrs := instrs' } :: rest) tails).map (·.blocks) =
      (analyze (main :: rest) tails).map (·.blocks)

/-- A jump before the first instruction. -/
def jumpBack (i : Nat) : Instr :=
  { Instr.nop with opcodeClass := .JMP, jmpCode := .JA, offset := -(i + 2) }

/-- A program with a jump before its first instruction has no graph. -/
theorem not_buildCfg_jumpBack {main : Load} {rest : List Load} {tails : List TailSpec} {j : Nat}
    (hj : j < main.instrs.length) {out : Linked} {cfg : List Block}
    (hlink : link ({ main with instrs := main.instrs.set j (jumpBack j) } :: rest) tails = .ok out)
    (hcfg : buildCfg out.instrs out.progs = .ok cfg) : False := by
  have hat : ({ main with instrs := main.instrs.set j (jumpBack j) } : Load).instrs[j]? =
      some (jumpBack j) := by simp [hj]
  obtain ⟨_, r, -, -, -, -, hlinked⟩ := getElem?_link hlink (List.getElem?_cons_zero) hat
  have hrange := jump_target_nonneg hcfg hlinked rfl rfl
  have hoffset : (retag r.mapRemap r.bssRename r.rodataBase (jumpBack j)).jumpOffset =
      -((j : Int) + 2) := rfl
  have hstart : loadStart ({ main with instrs := main.instrs.set j (jumpBack j) } :: rest) 0 = 0 :=
    rfl
  rw [hoffset, hstart] at hrange
  omega

/-- The analysis ends before the tracker runs. -/
def EndsEarly (r : Except AnalyzeError Analyzed) : Prop :=
  ∃ e, r = .error e ∧ ∀ t, e ≠ .track t

theorem endsEarly_analyze {loads : List Load} {tails : List TailSpec}
    (h : ∀ out, link loads tails = .ok out → ∀ cfg, buildCfg out.instrs out.progs ≠ .ok cfg) :
    EndsEarly (analyze loads tails) := by
  cases hlink : link loads tails with
  | error e =>
      refine ⟨.link e, ?_, nofun⟩
      simp only [analyze, hlink, Except.mapError]
      rfl
  | ok out =>
      cases hcfg : buildCfg out.instrs out.progs with
      | error e =>
          refine ⟨.cfg e, ?_, nofun⟩
          simp only [analyze, hlink, hcfg, Except.mapError, bind, Except.bind]
      | ok cfg => exact absurd hcfg (h out hlink cfg)

theorem not_endsEarly_analyze {loads : List Load} {tails : List TailSpec} {out : Linked}
    {cfg : List Block} (hlink : link loads tails = .ok out)
    (hcfg : buildCfg out.instrs out.progs = .ok cfg) : ¬ EndsEarly (analyze loads tails) := by
  rintro ⟨e, he, hearly⟩
  simp only [analyze, hlink, hcfg, Except.mapError, bind, Except.bind] at he
  cases htrack : track out.program cfg with
  | ok t =>
      rw [htrack] at he
      cases he
  | error t =>
      rw [htrack] at he
      cases he
      exact hearly t rfl

/-- The requested function is analysed exactly when it starts its section and control
reaches the whole section from it: the graph is built of every instruction, and a block
that nothing enters ends the tracking. -/
theorem entry_analysed_iff {main : Load} {rest : List Load} {tails : List TailSpec} {out : Linked}
    {cfg : List Block} (hlink : link (main :: rest) tails = .ok out)
    (hcfg : buildCfg out.instrs out.progs = .ok cfg) :
    EntryAnalysed main rest tails out cfg ↔
      main.entryIdx = 0 ∧
        ∀ i, i < main.instrs.length → Reaches out.instrs out.progs main.entryIdx i := by
  have hfirst : ∀ b, cfg[0]? = some b → b.start = 0 := fun b hb =>
    Option.some_inj.mp ((sited_buildCfg hcfg hb).start.symm.trans (leaders_zero _ _))
  constructor
  · intro h
    obtain ⟨b, hb⟩ : ∃ b, cfg[0]? = some b := by
      have hlen : 0 < cfg.length := (linkedTo_buildCfg hcfg).length ▸
        (List.getElem?_eq_some_iff.mp (leaders_zero out.instrs out.progs)).1
      exact ⟨_, List.getElem?_eq_getElem hlen⟩
    refine ⟨(h.start b hb).symm.trans (hfirst b hb), fun j hj => ?_⟩
    by_contra hnot
    have hsame := h.independent (main.instrs.set j (jumpBack j)) (by simp) fun i hi => by
      have hne : j ≠ i := fun heq => hnot (heq ▸ hi)
      rw [List.getElem?_set_ne hne]
    obtain ⟨e, he, hearly⟩ := endsEarly_analyze fun out' hlink' cfg' hcfg' =>
      not_buildCfg_jumpBack hj hlink' hcfg'
    rw [he] at hsame
    refine not_endsEarly_analyze hlink hcfg ⟨e, ?_, hearly⟩
    cases hmain : analyze (main :: rest) tails with
    | ok a =>
        rw [hmain] at hsame
        cases hsame
    | error e' =>
        rw [hmain] at hsame
        cases hsame
        rfl
  · rintro ⟨hentry, hall⟩
    refine ⟨fun b hb => (hfirst b hb).trans hentry.symm, fun instrs' hlen hsame => ?_⟩
    obtain rfl : instrs' = main.instrs := by
      apply List.ext_getElem?
      intro i
      rcases Nat.lt_or_ge i main.instrs.length with hi | hi
      · exact hsame i (hall i hi)
      · rw [List.getElem?_eq_none (by omega), List.getElem?_eq_none hi]
    rfl

/-- A function that starts its section is analysed. -/
theorem entry_analysed_first :
    ∃ out cfg, link [returnsLoad [2] 0] [] = .ok out ∧
      buildCfg out.instrs out.progs = .ok cfg ∧
      EntryAnalysed (returnsLoad [2] 0) [] [] out cfg := by
  obtain ⟨out, cfg, hlink, hcfg, hnext⟩ : ∃ out cfg, link [returnsLoad [2] 0] [] = .ok out ∧
      buildCfg out.instrs out.progs = .ok cfg ∧ Flows out.instrs out.progs 0 1 := by
    exact ⟨_, _, rfl, rfl, .next rfl (by decide)⟩
  refine ⟨out, cfg, hlink, hcfg, (entry_analysed_iff hlink hcfg).mpr ⟨rfl, fun i hi => ?_⟩⟩
  have htwo : i < 2 := hi
  obtain rfl | rfl : i = 0 ∨ i = 1 := by omega
  · exact .refl
  · exact .single hnext

/-- The second of two functions is not analysed, and neither is the first one: the section
has no verdict, and without the second function it has one. -/
theorem entry_not_analysed_second :
    (∃ out cfg, link [returnsLoad [1, 2] 2] [] = .ok out ∧
      buildCfg out.instrs out.progs = .ok cfg ∧
      ¬ EntryAnalysed (returnsLoad [1, 2] 2) [] [] out cfg) ∧
    (analyze [returnsLoad [1, 2] 0] []).isOk = false ∧ (analyze [returnsLoad [1] 0] []).isOk := by
  refine ⟨⟨_, _, rfl, rfl, fun h => ?_⟩, by decide +kernel, by decide +kernel⟩
  exact absurd (h.start _ rfl) (by decide)

end Hornet
