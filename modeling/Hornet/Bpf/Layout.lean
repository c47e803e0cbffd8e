import Hornet.Bpf.Graph
import Mathlib.Logic.Relation

/-!
Where the blocks of a graph lie. The leaders are sorted and start with the first
instruction; the block of a leader ends before the next one, control runs through
it without a jump, and the edges of the graph are steps of the control flow.
-/

namespace Hornet

/-- Whether control can pass on to the next instruction. -/
def Instr.fallsThrough (ins : Instr) : Bool :=
  !(ins.isJump && (ins.jmpCode = .JA || ins.jmpCode = .EXIT))

/-- Control can pass from one instruction to another. A tail call can enter any callee. -/
inductive Flows (instrs : List Instr) (progs : List ProgRegion) : Nat → Nat → Prop
  | next {i : Nat} {ins : Instr} (hi : instrs[i]? = some ins) (h : ins.fallsThrough) :
      Flows instrs progs i (i + 1)
  | jump {i j : Nat} {ins : Instr} (hi : instrs[i]? = some ins)
      (h : ins.isBranch ∨ (ins.isJump ∧ ins.jmpCode = .JA))
      (hj : (i : Int) + 1 + ins.jumpOffset = j) : Flows instrs progs i j
  | call {i : Nat} {ins : Instr} {r : ProgRegion} (hi : instrs[i]? = some ins)
      (h : ins.isTailCall) (hr : r ∈ progs) (hmain : r.isMain = false) :
      Flows instrs progs i r.start

/-- Control can get from one instruction to another. -/
abbrev Reaches (instrs : List Instr) (progs : List ProgRegion) : Nat → Nat → Prop :=
  Relation.ReflTransGen (Flows instrs progs)

theorem flows_lt {instrs : List Instr} {progs : List ProgRegion} {i j : Nat}
    (h : Flows instrs progs i j) : i < instrs.length := by
  cases h with
  | next hi => exact (List.getElem?_eq_some_iff.mp hi).1
  | jump hi => exact (List.getElem?_eq_some_iff.mp hi).1
  | call hi => exact (List.getElem?_eq_some_iff.mp hi).1

section Leaders

variable (instrs : List Instr) (progs : List ProgRegion)

theorem sorted_leaders : (leaders instrs progs).Pairwise (· < ·) := by
  have hle : (leaders instrs progs).Pairwise (· ≤ ·) := List.pairwise_insertionSort _ _
  exact (hle.and (nodup_leaders instrs progs)).imp fun h => Nat.lt_of_le_of_ne h.1 h.2

theorem mem_leaders {s : Nat} :
    s ∈ leaders instrs progs ↔ s = 0 ∨ (∃ r ∈ progs, r.start = s) ∨
      ∃ i ins, instrs[i]? = some ins ∧ s ∈ instrLeaders instrs.length i ins := by
  unfold leaders
  rw [List.mem_insertionSort, List.mem_dedup, List.mem_append, List.mem_cons, List.mem_map,
    List.mem_flatMap, or_assoc]
  refine or_congr_right (or_congr_right ?_)
  constructor
  · rintro ⟨⟨ins, i⟩, hmem, hs⟩
    exact ⟨i, ins, List.mem_zipIdx_iff_getElem?.mp hmem, hs⟩
  · rintro ⟨i, ins, hi, hs⟩
    exact ⟨(ins, i), List.mem_zipIdx_iff_getElem?.mpr hi, hs⟩

theorem leaders_zero : (leaders instrs progs)[0]? = some 0 := by
  have hmem : 0 ∈ leaders instrs progs := (mem_leaders instrs progs).mpr (.inl rfl)
  obtain ⟨k, hk⟩ := List.mem_iff_getElem?.mp hmem
  obtain ⟨hlt, hval⟩ := List.getElem?_eq_some_iff.mp hk
  rcases Nat.eq_zero_or_pos k with rfl | hpos
  · exact hk
  · have hlt' := (List.pairwise_iff_getElem.mp (sorted_leaders instrs progs)) 0 k (by omega) hlt hpos
    omega

variable {instrs progs}

theorem leaders_lt {j k s t : Nat} (hj : (leaders instrs progs)[j]? = some s)
    (hk : (leaders instrs progs)[k]? = some t) (h : j < k) : s < t := by
  obtain ⟨hjlt, rfl⟩ := List.getElem?_eq_some_iff.mp hj
  obtain ⟨hklt, rfl⟩ := List.getElem?_eq_some_iff.mp hk
  exact (List.pairwise_iff_getElem.mp (sorted_leaders instrs progs)) j k hjlt hklt h

/-- Between two neighbours there is no leader. -/
theorem not_leader_between {j s i : Nat} (hj : (leaders instrs progs)[j]? = some s) (hs : s < i)
    (hnext : ∀ t, (leaders instrs progs)[j + 1]? = some t → i < t) : i ∉ leaders instrs progs := by
  intro hmem
  obtain ⟨k, hk⟩ := List.mem_iff_getElem?.mp hmem
  rcases Nat.lt_trichotomy k j with hlt | rfl | hlt
  · have := leaders_lt hk hj hlt
    omega
  · have := Option.some_inj.mp (hj.symm.trans hk)
    omega
  · have hklt := (List.getElem?_eq_some_iff.mp hk).1
    have ht := hnext _ (List.getElem?_eq_getElem (by omega : j + 1 < _))
    rcases Nat.lt_or_ge (j + 1) k with hlt' | hge
    · have := leaders_lt (List.getElem?_eq_getElem (by omega : j + 1 < _)) hk hlt'
      omega
    · obtain rfl : k = j + 1 := by omega
      have := hnext i hk
      omega

theorem leader_lt_length (hn : 0 < instrs.length) (hprogs : ∀ r ∈ progs, r.start < instrs.length)
    {s : Nat} (hs : s ∈ leaders instrs progs) : s < instrs.length := by
  rcases (mem_leaders instrs progs).mp hs with rfl | ⟨r, hr, rfl⟩ | ⟨i, ins, hi, hmem⟩
  · exact hn
  · exact hprogs r hr
  · have hnext : ∀ x ∈ (if i + 1 < instrs.length then [i + 1] else []), x < instrs.length := by
      intro x hx
      split at hx
      · obtain rfl := List.mem_singleton.mp hx
        assumption
      · cases hx
    unfold instrLeaders at hmem
    dsimp only at hmem
    split at hmem
    · cases hmem
    · split at hmem
      · exact hnext s hmem
      · split at hmem
        · split at hmem
          · exact hnext s hmem
          · cases hmem
        · rcases List.mem_append.mp hmem with htarget | hmem
          · split at htarget
            · rename_i hrange
              obtain rfl := List.mem_singleton.mp htarget
              simp only [Bool.and_eq_true, decide_eq_true_eq] at hrange
              omega
            · cases htarget
          · exact hnext s hmem

/-- Every instruction lies in the block of a leader. -/
theorem exists_leader (instrs : List Instr) (progs : List ProgRegion) (i : Nat) :
    ∃ j s, (leaders instrs progs)[j]? = some s ∧ s ≤ i ∧
      ∀ t, (leaders instrs progs)[j + 1]? = some t → i < t := by
  induction i with
  | zero =>
      refine ⟨0, 0, leaders_zero instrs progs, Nat.le_refl 0, fun t ht => ?_⟩
      exact leaders_lt (leaders_zero instrs progs) ht Nat.zero_lt_one
  | succ i ih =>
      obtain ⟨j, s, hj, hs, hnext⟩ := ih
      by_cases hlead : (leaders instrs progs)[j + 1]? = some (i + 1)
      · exact ⟨j + 1, i + 1, hlead, Nat.le_refl _, fun t ht => leaders_lt hlead ht (by omega)⟩
      · refine ⟨j, s, hj, by omega, fun t ht => ?_⟩
        have hlt := hnext t ht
        have hne : t ≠ i + 1 := fun heq => hlead (heq ▸ ht)
        omega

end Leaders

section Blocks

/-- Where a block lies and whether a program other than the main one starts there. -/
def Block.site (b : Block) : Nat × Nat × Option ProgRegion := (b.start, b.end, b.progEntry)

theorem map_modify_of_eq {f : Block → Block} {blocks : List Block} {i : Nat}
    (h : ∀ b, (f b).site = b.site) : (blocks.modify i f).map Block.site = blocks.map Block.site := by
  apply List.ext_getElem?
  intro j
  simp only [List.getElem?_map, List.getElem?_modify]
  split
  · cases blocks[j]? with
    | none => rfl
    | some b => exact congrArg some (h b)
  · cases blocks[j]? <;> rfl

theorem sites_linkBlock {instrs : List Instr} {progs : List ProgRegion} {starts : List Nat}
    {i : Nat} {blocks blocks' : List Block}
    (h : linkBlock instrs progs starts blocks i = .ok blocks') :
    blocks'.map Block.site = blocks.map Block.site := by
  unfold linkBlock at h
  split at h
  · cases h
    rfl
  · obtain ⟨e, -, h⟩ := Lib.bind_eq_ok.mp h
    cases h
    have hpreds : ∀ (succs : List Nat) (blocks : List Block),
        (succs.foldl (addPred · i) blocks).map Block.site = blocks.map Block.site := by
      intro succs
      induction succs with
      | nil => exact fun _ => rfl
      | cons s succs ih =>
          intro blocks
          rw [List.foldl_cons, ih]
          exact map_modify_of_eq fun _ => rfl
    rw [hpreds]
    exact map_modify_of_eq fun _ => rfl

/-- Block `j` starts at leader `j` and ends before the next one, and only a region
that starts there, other than at the first block, marks it as an entry. -/
structure Sited (instrs : List Instr) (progs : List ProgRegion) (starts : List Nat) (j : Nat)
    (b : Block) : Prop where
  start : starts[j]? = some b.start
  «end» : b.end = match starts[j + 1]? with
    | some next => next - 1
    | none => instrs.length - 1
  entry : ∀ r, b.progEntry = some r → r ∈ progs ∧ r.start = b.start ∧ j ≠ 0

theorem sited_buildCfg {instrs : List Instr} {progs : List ProgRegion} {blocks : List Block}
    (h : buildCfg instrs progs = .ok blocks) {j : Nat} {b : Block} (hb : blocks[j]? = some b) :
    Sited instrs progs (leaders instrs progs) j b := by
  obtain ⟨linked, hlink, hmark⟩ := Lib.bind_eq_ok.mp h
  have hsites : linked.map Block.site =
      (cutBlocks instrs (leaders instrs progs)).map Block.site :=
    Lib.foldlM_ok
      (fun _ bs => bs.map Block.site = (cutBlocks instrs (leaders instrs progs)).map Block.site) rfl
      (fun _ _ _ _ hs _ hrun => (sites_linkBlock hrun).trans hs) hlink
  have hlinked : ∀ (j : Nat) (b : Block), linked[j]? = some b →
      Sited instrs progs (leaders instrs progs) j b := by
    intro j b hb
    have hat := congrArg (·[j]?) hsites
    simp only [List.getElem?_map, hb, cutBlocks, List.getElem?_zipIdx, Option.map_map] at hat
    obtain ⟨s, hs, hsite⟩ := Option.map_eq_some_iff.mp hat.symm
    simp only [Function.comp_apply, Nat.zero_add, Block.site, Prod.mk.injEq] at hsite
    obtain ⟨hstart, hend, hentry⟩ := hsite
    exact ⟨hstart ▸ hs, hend.symm, fun r hr => by rw [← hentry] at hr; cases hr⟩
  have hmarked := Lib.foldlM_ok (f := markEntry (leaders instrs progs))
    (fun _ bs => ∀ (j : Nat) (b : Block), bs[j]? = some b →
      Sited instrs progs (leaders instrs progs) j b) hlinked ?_ hmark
  · exact hmarked j b hb
  · intro _ region bs bs' hbs hmem hrun j b hb
    unfold markEntry at hrun
    split at hrun
    · cases hrun
    · rename_i entry hentry
      cases hrun
      split at hb
      · exact hbs j b hb
      · rename_i hne
        rw [List.getElem?_modify] at hb
        obtain ⟨old, hold, rfl⟩ := Option.map_eq_some_iff.mp hb
        split
        · rename_i heq
          subst heq
          have hsited := hbs entry old hold
          refine ⟨hsited.start, hsited.end, fun r hr => ?_⟩
          cases hr
          obtain ⟨t, ht, htarget⟩ := blockStartMap_eq_some hentry
          have hstart := Option.some_inj.mp (hsited.start.symm.trans ht)
          exact ⟨hmem, by simp only; omega, hne⟩
        · exact hbs j old hold

variable {instrs : List Instr} {progs : List ProgRegion} {blocks : List Block}

theorem blockEnd_of_buildCfg (h : buildCfg instrs progs = .ok blocks) {j : Nat} {b : Block}
    (hb : blocks[j]? = some b) :
    ∃ e, blockEnd instrs progs (leaders instrs progs) b.num b.start b.end = .ok e ∧
      b.succT = e.succT ∧ b.succF = e.succF ∧ b.branch = e.branch := by
  have hlinked := linkedTo_buildCfg h
  have hlt := (List.getElem?_eq_some_iff.mp hb).1
  exact hlinked.ended j b (hlinked.length ▸ hlt) hb

/-- The last instruction of a block exists. -/
theorem end_lt_of_buildCfg (h : buildCfg instrs progs = .ok blocks) {j : Nat} {b : Block}
    (hb : blocks[j]? = some b) : b.end < instrs.length := by
  obtain ⟨e, he, -⟩ := blockEnd_of_buildCfg h hb
  obtain ⟨last, hlast, -⟩ := blockEnd_cases he
  exact (List.getElem?_eq_some_iff.mp hlast).1

/-- Every instruction lies in a block. -/
theorem exists_block (h : buildCfg instrs progs = .ok blocks) {i : Nat} (hi : i < instrs.length) :
    ∃ j b, blocks[j]? = some b ∧ b.start ≤ i ∧ i ≤ b.end ∧
      ∀ t, (leaders instrs progs)[j + 1]? = some t → i < t := by
  obtain ⟨j, s, hj, hs, hnext⟩ := exists_leader instrs progs i
  have hlt : j < blocks.length := (linkedTo_buildCfg h).length ▸ (List.getElem?_eq_some_iff.mp hj).1
  have hsited := sited_buildCfg h (List.getElem?_eq_getElem hlt)
  have hstart := Option.some_inj.mp (hsited.start.symm.trans hj)
  refine ⟨j, blocks[j], List.getElem?_eq_getElem hlt, by omega, ?_, hnext⟩
  rw [hsited.end]
  split
  · rename_i next hnext'
    exact Nat.le_sub_one_of_lt (hnext next hnext')
  · exact Nat.le_sub_one_of_lt hi

/-- An instruction behind which a block starts, if any instruction follows, ends a block. -/
theorem exists_block_end (h : buildCfg instrs progs = .ok blocks) {i : Nat} (hi : i < instrs.length)
    (hnext : i + 1 < instrs.length → i + 1 ∈ leaders instrs progs) :
    ∃ (j : Nat) (b : Block), blocks[j]? = some b ∧ b.end = i := by
  obtain ⟨j, b, hb, hstart, hend, hbefore⟩ := exists_block h hi
  refine ⟨j, b, hb, Nat.le_antisymm ?_ hend⟩
  by_contra hlt
  have hsited := sited_buildCfg h hb
  have hlast := end_lt_of_buildCfg h hb
  refine not_leader_between hsited.start (by omega : b.start < i + 1) (fun t ht => ?_)
    (hnext (by omega))
  have hend' := hsited.end
  rw [ht] at hend'
  simp only at hend'
  have := hbefore t ht
  omega

/-- Inside a block control falls through. -/
theorem fallsThrough_of_not_leader {i : Nat} {ins : Instr} (hi : instrs[i]? = some ins)
    (hlt : i + 1 < instrs.length) (hnot : i + 1 ∉ leaders instrs progs) : ins.fallsThrough := by
  by_contra hfalls
  apply hnot
  refine (mem_leaders instrs progs).mpr (.inr (.inr ⟨i, ins, hi, ?_⟩))
  simp only [Instr.fallsThrough, Bool.not_eq_true', Bool.not_eq_false, Bool.and_eq_true,
    Bool.or_eq_true, decide_eq_true_eq] at hfalls
  obtain ⟨hjump, hcode | hcode⟩ := hfalls
  · simp [instrLeaders, hjump, Instr.isExit, Instr.isCall, hcode, hlt]
  · simp [instrLeaders, hjump, Instr.isExit, hcode, hlt]

/-- Control gets from the start of a block to each of its instructions. -/
theorem reaches_in_block (h : buildCfg instrs progs = .ok blocks) {j : Nat} {b : Block}
    (hb : blocks[j]? = some b) {i : Nat} (hstart : b.start ≤ i) (hend : i ≤ b.end) :
    Reaches instrs progs b.start i := by
  have hlast := end_lt_of_buildCfg h hb
  have hsited := sited_buildCfg h hb
  induction i, hstart using Nat.le_induction with
  | base => exact .refl
  | succ i hi ih =>
      have hnot : i + 1 ∉ leaders instrs progs := by
        refine not_leader_between hsited.start (by omega) fun t ht => ?_
        have hend' := hsited.end
        rw [ht] at hend'
        simp only at hend'
        omega
      have hget : instrs[i]? = some instrs[i] := List.getElem?_eq_getElem (by omega)
      exact (ih (by omega)).tail (.next hget (fallsThrough_of_not_leader hget (by omega) hnot))

theorem mem_callees_of_tailTarget {start «end» : Nat} {r : ProgRegion}
    (h : tailTarget instrs start «end» progs = .ok r) : r ∈ progs ∧ r.isMain = false := by
  have hmem : ∀ x ∈ progs.filter (!·.isMain), x ∈ progs ∧ x.isMain = false := fun x hx => by
    simpa using List.mem_filter.mp hx
  unfold tailTarget at h
  dsimp only at h
  split at h
  · cases h
  · split at h
    · split at h
      · rename_i found
        cases h
        exact hmem _ (List.mem_of_find?_eq_some found)
      · cases h
    · split at h
      · rename_i hone
        cases h
        exact hmem _ (by rw [hone]; simp)
      · cases h

theorem flows_next {i : Nat} {ins : Instr} {j s : Nat} {starts : List Nat}
    (hi : instrs[i]? = some ins) (hfalls : ins.fallsThrough)
    (hsucc : blockStartMap starts (i + 1) = some j) (hs : starts[j]? = some s) :
    Flows instrs progs i s := by
  obtain ⟨t, ht, htarget⟩ := blockStartMap_eq_some hsucc
  obtain rfl : s = i + 1 := by
    have := Option.some_inj.mp (hs.symm.trans ht)
    omega
  exact .next hi hfalls

theorem blockEnd_flows {starts : List Nat} {num start «end» j s : Nat} {e : BlockEnd}
    (h : blockEnd instrs progs starts num start «end» = .ok e)
    (hedge : e.succT = some j ∨ e.succF = some j) (hs : starts[j]? = some s) :
    Flows instrs progs «end» s := by
  unfold blockEnd at h
  split at h
  · cases h
  · rename_i last hlast
    split at h
    · rename_i hjump
      unfold jumpEnd at h
      split at h
      · rename_i hcode
        split at h
        · rename_i succ hsucc
          cases h
          simp only [Option.some.injEq, reduceCtorEq, or_false] at hedge
          obtain ⟨t, ht, htarget⟩ := blockStartMap_eq_some hsucc
          rw [hedge, hs, Option.some_inj] at ht
          exact .jump hlast (.inr ⟨hjump, hcode⟩) (ht ▸ htarget)
        · cases h
      · rename_i hcode
        have hfalls : last.fallsThrough := by simp [Instr.fallsThrough, hcode]
        split at h
        · rename_i htail
          obtain ⟨-, r, hr, hT, hF⟩ := tailCallEnd_ok h
          rcases hedge with hedge | hedge
          · obtain ⟨t, ht, htarget⟩ := blockStartMap_eq_some (hT.symm.trans hedge)
            obtain ⟨hmem, hmain⟩ := mem_callees_of_tailTarget hr
            obtain rfl : s = r.start := by
              have := Option.some_inj.mp (hs.symm.trans ht)
              omega
            exact .call hlast htail hmem hmain
          · exact flows_next hlast hfalls (hF.symm.trans hedge) hs
        · obtain ⟨hnext, he⟩ := fallsInto_ok h
          rw [he] at hedge
          simp only [reduceCtorEq, false_or] at hedge
          exact flows_next hlast hfalls (hnext.trans hedge) hs
      · cases h
        simp at hedge
      · rename_i hnJA hnCALL hnEXIT
        have hJA : last.jmpCode ≠ .JA := hnJA
        have hCALL : last.jmpCode ≠ .CALL := hnCALL
        have hEXIT : last.jmpCode ≠ .EXIT := hnEXIT
        obtain ⟨-, hT, hF⟩ := branchEnd_ok h
        rcases hedge with hedge | hedge
        · obtain ⟨t, ht, htarget⟩ := blockStartMap_eq_some (hT.symm.trans hedge)
          have hst := Option.some_inj.mp (hs.symm.trans ht)
          have hbranch : last.isBranch := by simp [Instr.isBranch, hjump, hJA, hCALL, hEXIT]
          have hoffset : last.jumpOffset = last.offset := by simp [Instr.jumpOffset, hJA]
          exact .jump hlast (.inl hbranch) (by rw [hoffset, hst]; exact htarget)
        · exact flows_next hlast (by simp [Instr.fallsThrough, hJA, hEXIT])
            (hF.symm.trans hedge) hs
    · rename_i hjump
      cases h
      simp only [reduceCtorEq, false_or] at hedge
      exact flows_next hlast (by simp [Instr.fallsThrough, hjump]) hedge hs

/-- An edge of the graph is a step of the control flow. -/
theorem flows_of_edge (h : buildCfg instrs progs = .ok blocks) {p j : Nat} {pb b : Block}
    (hp : blocks[p]? = some pb) (hb : blocks[j]? = some b)
    (hedge : pb.succT = some j ∨ pb.succF = some j) : Flows instrs progs pb.end b.start := by
  obtain ⟨e, he, hT, hF, -⟩ := blockEnd_of_buildCfg h hp
  rw [hT, hF] at hedge
  exact blockEnd_flows he hedge (sited_buildCfg h hb).start

theorem start_le_end (h : buildCfg instrs progs = .ok blocks)
    (hprogs : ∀ r ∈ progs, r.start < instrs.length) {j : Nat} {b : Block}
    (hb : blocks[j]? = some b) : b.start ≤ b.end := by
  have hlast := end_lt_of_buildCfg h hb
  have hsited := sited_buildCfg h hb
  have hlt := leader_lt_length (by omega) hprogs (List.mem_of_getElem? hsited.start)
  rw [hsited.end]
  split
  · rename_i next hnext
    exact Nat.le_sub_one_of_lt (leaders_lt hsited.start hnext (by omega))
  · exact Nat.le_sub_one_of_lt hlt

/-- A predecessor of a block has an edge to it. -/
theorem edge_of_mem_preds (h : buildCfg instrs progs = .ok blocks) {j p : Nat} {b : Block}
    (hb : blocks[j]? = some b) (hp : p ∈ b.preds) :
    ∃ pb, blocks[p]? = some pb ∧ (pb.succT = some j ∨ pb.succF = some j) := by
  have hlinked := wellLinked_buildCfg h
  rw [hlinked.preds j b hb] at hp
  obtain ⟨pb, hpb, hmem⟩ := List.mem_flatMap.mp hp
  obtain ⟨k, hk⟩ := List.mem_iff_getElem?.mp hpb
  obtain ⟨s, hs, hnum⟩ := List.mem_filterMap.mp hmem
  split at hnum
  · rename_i heq
    subst heq
    have hnumk : pb.num = p := Option.some_inj.mp hnum
    rw [hlinked.num k pb hk] at hnumk
    subst hnumk
    refine ⟨pb, hk, ?_⟩
    simpa [Block.links, Option.mem_toList] using hs
  · cases hnum

/-- The target of an unconditional jump is not before the first instruction. -/
theorem jump_target_nonneg (h : buildCfg instrs progs = .ok blocks) {i : Nat} {ins : Instr}
    (hi : instrs[i]? = some ins) (hjump : ins.isJump) (hcode : ins.jmpCode = .JA) :
    0 ≤ (i : Int) + 1 + ins.jumpOffset := by
  have hlt := (List.getElem?_eq_some_iff.mp hi).1
  obtain ⟨j, b, hb, rfl⟩ := exists_block_end h hlt fun hnext => by
    refine (mem_leaders instrs progs).mpr (.inr (.inr ⟨i, ins, hi, ?_⟩))
    simp [instrLeaders, hjump, Instr.isExit, Instr.isCall, hcode, hnext]
  obtain ⟨e, he, -⟩ := blockEnd_of_buildCfg h hb
  simp only [blockEnd, hi, hjump, jumpEnd, hcode, if_true] at he
  split at he
  · rename_i succ hsucc
    obtain ⟨t, -, htarget⟩ := blockStartMap_eq_some hsucc
    omega
  · cases he

end Blocks

end Hornet
