import Hornet.Track.Frame
import Hornet.Track.MemoryKept
import Mathlib.Logic.Relation

/-!
The memory of a path beside the memory of the machine, instruction after instruction:
the instructions that cannot change memory record no action that does, and over a run
the two stay the same.
-/

namespace Hornet

open Smt

/-- An action that changes neither the packet nor a map nor a `.bss` symbol. -/
def Action.isQuiet : Action → Bool
  | .pktWrite .. | .mapWrite .. | .mapAtomicAdd .. | .mapUpdate .. | .mapDelete ..
  | .bssWrite .. | .bssAtomicAdd .. => false
  | _ => true

section Quiet

variable {maps : List MapInfo} {R : Option (Reads maps)} {blk : Option Nat} {st st' : Z3State maps}

theorem contents_quiet {e : Event} (hquiet : e.action.isQuiet = true) (m : ZModel)
    (h : e.toZ3 R blk st = .ok st') : st'.contents m = st.contents m := by
  obtain ⟨block, idx, action⟩ := e
  cases action with
  | pktWrite | mapWrite | mapAtomicAdd | mapUpdate | mapDelete | bssWrite | bssAtomicAdd =>
      cases hquiet
  | ctxWrite value =>
      obtain ⟨v, -, h⟩ := Lib.bind_eq_ok.mp h
      cases h
      rfl
  | adjustHead | adjustTail | adjustMeta | mapLookup | xdpBuffLen | tailCall | perfEventOutput =>
      cases h
      rfl

theorem contents_quiet_run {es : List Event} (hquiet : ∀ e ∈ es, e.action.isQuiet = true) (m : ZModel)
    (h : es.foldlM (fun st e => e.toZ3 R blk st) st = .ok st') : st'.contents m = st.contents m := by
  refine Lib.foldlM_ok (fun _ s => s.contents m = st.contents m) rfl ?_ h
  intro _ e _ _ hs hmem hstep
  exact (contents_quiet (hquiet e hmem) m hstep).trans hs

end Quiet

section Instrs

variable {P : Program} {blocks : List Block} {b b' : Block} {idx : Nat} {instr : Instr}

/-- From `b` to `b'` no action is recorded, or one that leaves memory alone. -/
def RecordsQuiet (b b' : Block) : Prop :=
  ∃ as : List Event, b'.actions = b.actions ++ as ∧ ∀ e ∈ as, e.action.isQuiet = true

theorem recordsQuiet_of_outline (h : b'.outline = b.outline) : RecordsQuiet b b' := by
  have hactions : b'.actions = b.actions := congrArg (·.2.2.1) h
  exact ⟨[], by rw [hactions, List.append_nil], fun e he => by cases he⟩

theorem recordsQuiet_of_emit {a : Action} (ha : a.isQuiet = true)
    (h : b'.actions = b.actions ++ [⟨b.num, b.idx, a⟩]) : RecordsQuiet b b' := by
  refine ⟨_, h, fun e he => ?_⟩
  rw [List.mem_singleton.mp he]
  exact ha

/-- What follows on an outline that is the same. -/
theorem RecordsQuiet.after {b₁ : Block} (h : RecordsQuiet b₁ b') (houtline : b₁.outline = b.outline) :
    RecordsQuiet b b' := by
  obtain ⟨as, hactions, hquiet⟩ := h
  have hsame : b₁.actions = b.actions := congrArg (·.2.2.1) houtline
  exact ⟨as, by rw [hactions, hsame], hquiet⟩

theorem recordsQuiet_trackStore {p : PTR Expr} (hdst : b.reg instr.dstReg = some (.ptr p))
    (htype : p.ptrType = .STK ∨ p.ptrType = .CTX) (h : trackStore idx instr b = .ok b') :
    RecordsQuiet b b' := by
  unfold trackStore at h
  rw [hdst] at h
  dsimp only at h
  split at h
  · cases h
  · cases h
  · unfold store at h
    split at h
    · cases h
    · rcases htype with htype | htype
      · simp only [htype] at h
        exact recordsQuiet_of_outline (outline_stkStore h)
      · simp only [htype] at h
        rcases Lib.ite_eq_ok h with ⟨-, h⟩ | ⟨-, h⟩
        · cases h
        rcases Lib.ite_eq_ok h with ⟨-, h⟩ | ⟨-, h⟩
        · cases h
        · cases h
          exact recordsQuiet_of_emit rfl rfl
  · rcases Lib.ite_eq_ok h with ⟨-, h⟩ | ⟨-, h⟩
    · cases h
    rcases Lib.ite_eq_ok h with ⟨-, h⟩ | ⟨hstk, h⟩
    · exact recordsQuiet_of_outline (outline_atomicStack h)
    · have hctx : p.ptrType = .CTX := htype.resolve_left hstk
      rw [if_neg (by simp [hctx])] at h
      cases h
  · cases h

/-- A helper other than the update and the delete of a map entry. -/
theorem recordsQuiet_helper {imm : Int} (himm : imm ≠ 2 ∧ imm ≠ 3)
    (h : HelperStep P blocks idx b b' imm) : RecordsQuiet b b' := by
  have hadjust : ∀ {n : Int} {action : Int → Action} {ctx : PTR Expr} {b' : Block},
      (∀ delta, (action delta).isQuiet = true) → adjustCall idx n b action = .ok (ctx, b') →
      RecordsQuiet b b' := by
    intro n action ctx b' hquiet hcall
    obtain ⟨_, -, hcall⟩ := Lib.bind_eq_ok.mp hcall
    obtain ⟨delta, -, hcall⟩ := Lib.bind_eq_ok.mp hcall
    cases hcall
    exact recordsQuiet_of_emit (hquiet delta) rfl
  cases h with
  | mapLookup h =>
      unfold mapLookup at h
      split at h
      · obtain ⟨info, -, h⟩ := Lib.bind_eq_ok.mp h
        obtain ⟨⟨key, b₁⟩, hload, h⟩ := Lib.bind_eq_ok.mp h
        cases h
        refine RecordsQuiet.after ?_ (outline_load hload)
        exact recordsQuiet_of_emit rfl rfl
      · cases h
  | mapUpdate => exact absurd rfl himm.1
  | mapDelete => exact absurd rfl himm.2
  | named _ r _ h =>
      rw [h]
      exact ⟨[], (List.append_nil _).symm, fun e he => by cases he⟩
  | perfEventOutput h =>
      rw [h]
      exact recordsQuiet_of_emit rfl rfl
  | adjustHead h =>
      obtain ⟨⟨ctx, b₁⟩, hcall, h⟩ := Lib.bind_eq_ok.mp h
      cases h
      obtain ⟨as, hactions, hquiet⟩ := hadjust (fun _ => rfl) hcall
      exact ⟨as, hactions, hquiet⟩
  | tailCall h =>
      obtain ⟨region, -, h⟩ := Lib.bind_eq_ok.mp h
      split at h
      · rcases Lib.ite_eq_ok h with ⟨-, h⟩ | ⟨-, h⟩
        · cases h
        obtain ⟨info, -, h⟩ := Lib.bind_eq_ok.mp h
        rcases Lib.ite_eq_ok h with ⟨-, h⟩ | ⟨-, h⟩
        · cases h
        · cases h
          exact recordsQuiet_of_emit rfl rfl
      · cases h
  | adjustMeta h => exact hadjust (fun _ => rfl) h
  | adjustTail h => exact hadjust (fun _ => rfl) h
  | buffLen h =>
      rw [h]
      exact recordsQuiet_of_emit rfl rfl

/-- An instruction that cannot change memory records no action that does. -/
theorem recordsQuiet_trackInstr (hinstr : P.instrs[idx]? = some instr)
    (hother : ¬canChangeMemory instr ∨ storesElsewhere instr b)
    (h : trackInstr P blocks b idx = .ok b') : RecordsQuiet b b' := by
  have hindexed : RecordsQuiet { b with idx := idx } b' := by
    rcases hother with hnot | ⟨hstore, p, hdst, htype⟩
    · simp only [canChangeMemory, callsHelper, not_or, not_and] at hnot
      obtain ⟨hstore, hupdate, hdelete, hcall⟩ := hnot
      unfold trackInstr at h
      dsimp only at h
      rw [hinstr] at h
      dsimp only at h
      rcases Lib.ite_eq_ok h with ⟨-, h⟩ | ⟨-, h⟩
      · exact recordsQuiet_of_outline (outline_trackAlu h)
      rcases Lib.ite_eq_ok h with ⟨-, h⟩ | ⟨-, h⟩
      · exact recordsQuiet_of_outline (outline_trackLoad h)
      rcases Lib.ite_eq_ok h with ⟨hst, h⟩ | ⟨-, h⟩
      · exact absurd hst hstore
      rcases Lib.ite_eq_ok h with ⟨hiscall, h⟩ | ⟨-, h⟩
      · have hsrc : instr.srcReg = 0 := not_not.mp (hcall hiscall)
        obtain ⟨b₁, hhelper, hactions⟩ := trackCall_helper ⟨hiscall, hsrc, rfl⟩ h
        obtain ⟨as, has, hquiet⟩ := recordsQuiet_helper
          ⟨hupdate hiscall hsrc, hdelete hiscall hsrc⟩ (helperCall_step hhelper)
        exact ⟨as, hactions.trans has, hquiet⟩
      rcases Lib.ite_eq_ok h with ⟨-, h⟩ | ⟨-, h⟩
      · exact recordsQuiet_of_outline (outline_trackBranch h)
      · cases h
        exact recordsQuiet_of_outline rfl
    · exact recordsQuiet_trackStore hdst htype (trackInstr_store hinstr hstore h)
  exact hindexed

end Instrs

/-- One instruction of an accepted program: the state of a path before and after the actions
that were recorded for it, and beside it the memory of the machine. An instruction that can
change memory has its operands right and is accounted for. -/
inductive MemoryStep (P : Program) (cfg : List Block) (m : ZModel) :
    Z3State P.maps × Contents P.maps → Z3State P.maps × Contents P.maps → Prop
  | memory {blocks : List Block} {b b' : Block} {idx : Nat} {instr : Instr} {op : MemoryOp}
      {mop : MachineOp P.maps} {R : Option (Reads P.maps)} {blk : Option Nat}
      {st st' : Z3State P.maps} {c c' : Contents P.maps} (hb : TrackPoint P cfg b)
      (hinstr : P.instrs[idx]? = some instr) (hstep : trackInstr P blocks b idx = .ok b')
      (hop : Performs P.maps idx instr { b with idx := idx } op) (hR : Rereads R)
      (happly : (b'.actions.drop b.actions.length).foldlM (fun st e => e.toZ3 R blk st) st = .ok st')
      (hmatch : Matches R blk st m idx c op mop) (hacc : op.Accounted R blk st m c mop)
      (hleaves : mop.Leaves c c') : MemoryStep P cfg m (st, c) (st', c')
  | other {blocks : List Block} {b b' : Block} {idx : Nat} {instr : Instr}
      {R : Option (Reads P.maps)} {blk : Option Nat} {st st' : Z3State P.maps} {c : Contents P.maps}
      (hinstr : P.instrs[idx]? = some instr) (hstep : trackInstr P blocks b idx = .ok b')
      (hother : ¬canChangeMemory instr ∨ storesElsewhere instr b)
      (happly : (b'.actions.drop b.actions.length).foldlM (fun st e => e.toZ3 R blk st) st = .ok st') :
      MemoryStep P cfg m (st, c) (st', c)

section Run

variable {P : Program} {cfg : List Block} {m : ZModel}

/-- A step keeps the memory of the path that of the machine. -/
theorem contents_of_step (hcfg : buildCfg P.instrs P.progs = .ok cfg)
    {s s' : Z3State P.maps × Contents P.maps} (h : MemoryStep P cfg m s s')
    (hs : s.1.contents m = s.2) : s'.1.contents m = s'.2 := by
  cases h with
  | memory hb hinstr hstep hop hR happly hmatch hacc hleaves =>
      dsimp only at hs
      subst hs
      exact (kept_iff_of_performs hcfg hb hinstr hstep hop hR happly hmatch).mpr hacc _ hleaves
  | other hinstr hstep hother happly =>
      obtain ⟨as, hactions, hquiet⟩ := recordsQuiet_trackInstr hinstr hother hstep
      rw [hactions, List.drop_left] at happly
      exact (contents_quiet_run hquiet m happly).trans hs

end Run

end Hornet
