import Hornet.Track.Frame
import Hornet.Verify.SpecParse

/-!
The calls of helpers that the tracker has recorded, under the indices of their instructions.
What is recorded of one instruction is recorded of one helper, which has a name.
-/

namespace Hornet

open Lib

section Index

variable (lenView : Event → Option Int)

/-- The result of an adjustment. -/
def Event.adjusted (e : Event) (imm : Nat) : CallRecord where
  imm := imm
  ret := .scalar
  retSize := 8
  retval := .funcRetval { idx := e.idx, func := imm, block := e.block }
  mapId := none
  mapKey := none
  mapKeyId := none

/-- The call that an action records. An action does not keep in which view of the packet
`bpf_xdp_get_buff_len` has measured it; `lenView` does. -/
def Event.callRecord (e : Event) : Option CallRecord :=
  match e.action with
  | .mapLookup mapId mapKey mapKeyId =>
      let result : PTR Expr :=
        { ptrType := .MAP_VALUE, baseId := mapKeyId, mapId := mapId, mapKey := mapKey
          mapKeyId := mapKeyId, checkedNull := none }
      some { imm := 1, ret := .pointer, retSize := 8, retval := .ptr result, mapId := mapId
             mapKey := mapKey, mapKeyId := mapKeyId }
  | .adjustHead _ => some (e.adjusted 44)
  | .adjustTail _ => some (e.adjusted 65)
  | .adjustMeta _ => some (e.adjusted 54)
  | .xdpBuffLen =>
      some { imm := 188, ret := .scalar, retSize := 8, retval := .pktLen 8 (lenView e)
             mapId := none, mapKey := none, mapKeyId := none }
  | .tailCall mapId index =>
      some { imm := 12, ret := .transfer, retSize := 8, retval := .scalar 8 e.idx, mapId := mapId
             mapKey := index, mapKeyId := none }
  | _ => none

/-- The call whose result is a source. -/
def FuncRetval.callRecord (r : FuncRetval Expr) : CallRecord where
  imm := r.func
  ret := .scalar
  retSize := r.size
  retval := .funcRetval r
  mapId := r.mapId
  mapKey := r.mapKey
  mapKeyId := r.mapKeyId

/-- The calls of a block: its actions first, and then its sources. -/
def Block.calls (b : Block) : List (Int × CallRecord) :=
  (b.actions.filterMap fun e => (e.callRecord lenView).map (e.idx, ·)) ++
    b.retvals.map fun r => (r.idx, r.callRecord)

def buildCallIndex (blocks : List Block) : Dict Int CallRecord :=
  .ofList (blocks.flatMap (Block.calls lenView))

end Index

/-- What a helper returns. -/
def helperRet (imm : Int) : CallRet :=
  if imm = 1 then .pointer else if imm = 12 then .transfer else .scalar

/-- The instruction with the index has the immediate. -/
def Program.HasImm (P : Program) (idx imm : Int) : Prop :=
  ∃ (i : Nat) (instr : Instr), idx = i ∧ P.instrs[i]? = some instr ∧ instr.imm = imm

theorem Program.HasImm.unique {P : Program} {idx imm imm' : Int} (h : P.HasImm idx imm)
    (h' : P.HasImm idx imm') : imm = imm' := by
  obtain ⟨i, instr, rfl, hinstr, rfl⟩ := h
  obtain ⟨i', instr', heq, hinstr', rfl⟩ := h'
  obtain rfl := Int.ofNat_inj.mp heq
  rw [hinstr] at hinstr'
  rw [Option.some.inj hinstr']

/-- The record of a call of a helper by the instruction with the index. -/
structure CallRecord.Of (P : Program) (idx : Int) (c : CallRecord) : Prop where
  called : P.HasImm idx c.imm
  ret : c.ret = helperRet c.imm
  named : c.imm ∈ HELPER_IMM.map (·.2)

section Recorded

variable {P : Program} {blocks : List Block} {entered b b' : Block} {idx : Nat}

/-- What a block records of its calls. -/
structure RecordsCalls (P : Program) (b : Block) : Prop where
  actions : ∀ e ∈ b.actions, ∀ imm, e.action.imm = some imm → P.HasImm e.idx imm
  retvals : ∀ r ∈ b.retvals, P.HasImm r.idx r.func ∧ (r.func : Int) ∈ RETVAL_HELPERS

theorem RecordsCalls.trackInstr (h : RecordsCalls P b) (hstep : trackInstr P blocks b idx = .ok b') :
    RecordsCalls P b' := by
  obtain ⟨instr, hinstr, hlogs⟩ := logs_trackInstr hstep
  have himm : P.HasImm (idx : Int) instr.imm := ⟨idx, instr, rfl, hinstr, rfl⟩
  cases hlogs with
  | nothing houtline =>
      have hactions : b'.actions = b.actions := congrArg (·.2.2.1) houtline
      have hretvals : b'.retvals = b.retvals := congrArg (·.2.2.2) houtline
      exact ⟨hactions ▸ h.actions, hretvals ▸ h.retvals⟩
  | one a ha houtline =>
      have hactions : b'.actions = b.actions ++ [⟨b.num, idx, a⟩] := congrArg (·.2.2.1) houtline
      have hretvals : b'.retvals = b.retvals := congrArg (·.2.2.2) houtline
      refine ⟨fun e he imm hcall => ?_, hretvals ▸ h.retvals⟩
      rw [hactions, List.mem_append, List.mem_singleton] at he
      rcases he with he | rfl
      · exact h.actions e he imm hcall
      · exact ha imm hcall ▸ himm
  | named r hfunc hmem hidx houtline =>
      rw [Block.outline_addRetval] at houtline
      have hactions : b'.actions = b.actions := congrArg (·.2.2.1) houtline
      have hretvals : b'.retvals = b.retvals ++ [r] := congrArg (·.2.2.2) houtline
      refine ⟨hactions ▸ h.actions, fun r' hr' => ?_⟩
      rw [hretvals, List.mem_append, List.mem_singleton] at hr'
      rcases hr' with hr' | rfl
      · exact h.retvals r' hr'
      · rw [hidx, hfunc]
        exact ⟨himm, hmem⟩

theorem recordsCalls_track {cfg : List Block} {t : Tracker} (h : track P cfg = .ok t) :
    ∀ b ∈ t.blocks, RecordsCalls P b := by
  refine track_forall (fun hactions hretvals hrun => ?_) h
  refine foldlM_ok (fun _ b => RecordsCalls P b) ⟨?_, ?_⟩ (fun _ _ _ _ hs _ hstep => hs.trackInstr hstep) hrun
  · simp [hactions]
  · simp [hretvals]

variable {lenView : Event → Option Int}

/-- The record of an action's call. -/
theorem of_callRecord {e : Event} {c : CallRecord} (h : e.callRecord lenView = some c) :
    e.action.imm = some c.imm ∧ c.ret = helperRet c.imm := by
  unfold Event.callRecord at h
  split at h
  all_goals cases h
  all_goals rename_i haction
  all_goals rw [haction]
  all_goals exact ⟨rfl, rfl⟩

theorem named_action {a : Action} {imm : Int} (h : a.imm = some imm) :
    imm ∈ HELPER_IMM.map (·.2) := by
  unfold Action.imm at h
  split at h
  all_goals cases h
  all_goals decide

theorem helperRet_retval : ∀ imm ∈ RETVAL_HELPERS, helperRet imm = .scalar ∧
    imm ∈ HELPER_IMM.map (·.2) := by
  decide

theorem RecordsCalls.of_calls (h : RecordsCalls P b) {x : Int × CallRecord}
    (hx : x ∈ b.calls lenView) : x.2.Of P x.1 := by
  rcases List.mem_append.mp hx with hx | hx
  · obtain ⟨e, he, hx⟩ := List.mem_filterMap.mp hx
    obtain ⟨c, hc, rfl⟩ := Option.map_eq_some_iff.mp hx
    obtain ⟨himm, hret⟩ := of_callRecord hc
    exact ⟨h.actions e he c.imm himm, hret, named_action himm⟩
  · obtain ⟨r, hr, rfl⟩ := List.mem_map.mp hx
    obtain ⟨himm, hmem⟩ := h.retvals r hr
    obtain ⟨hret, hname⟩ := helperRet_retval _ hmem
    exact ⟨himm, hret.symm, hname⟩

/-- The index of calls has a call of each instruction of which one is recorded, and its helper
is the one that is recorded. -/
theorem get?_buildCallIndex {cfg : List Block} {t : Tracker} (h : track P cfg = .ok t)
    (hb : b ∈ t.blocks) {k : Int} {c : CallRecord} (hc : (k, c) ∈ b.calls lenView) :
    ∃ c', (buildCallIndex lenView t.blocks).get? k = some c' ∧ c'.imm = c.imm ∧ c'.ret = c.ret := by
  have hof : ∀ {c : CallRecord}, (k, c) ∈ t.blocks.flatMap (Block.calls lenView) → c.Of P k := by
    intro c hc
    obtain ⟨b, hb, hc⟩ := List.mem_flatMap.mp hc
    exact (recordsCalls_track h b hb).of_calls hc
  have hmem : (k, c) ∈ t.blocks.flatMap (Block.calls lenView) := List.mem_flatMap.mpr ⟨b, hb, hc⟩
  obtain ⟨c', hc'⟩ := Dict.exists_get?_ofList hmem
  have hc'of := hof (Dict.mem_of_get?_ofList hc')
  have himm : c'.imm = c.imm := hc'of.called.unique (hof hmem).called
  exact ⟨c', hc', himm, by rw [hc'of.ret, (hof hmem).ret, himm]⟩

end Recorded

end Hornet
