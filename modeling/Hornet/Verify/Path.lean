import Hornet.Verify.Checker
import Hornet.Verify.Edges
import Hornet.Verify.Merge
import Hornet.Verify.PathRun

/-!
The walk against the execution of one path. Beside the walk runs the path that a model
takes, in its own state. The walk and the path reach the same blocks, and the state at the
end of a reached block agrees with the state that the path leaves there.
-/

namespace Hornet

open Smt Lib

variable {maps : List MapInfo} {m : ZModel}

/-- The interface indices of a state are those of the entry state. -/
structure Z3State.SamePorts (st st' : Z3State maps) : Prop where
  ingress : st'.ingress = st.ingress
  egress : st'.egress = st.egress

section Ports

variable {R : Option (Reads maps)} {blk : Option Nat} {st st' : Z3State maps}

/-- No action changes the interface indices. -/
theorem samePorts_event {e : Event} (h : e.toZ3 R blk st = .ok st') : st.SamePorts st' := by
  cases event_changed h with
  | same => exact ⟨rfl, rfl⟩
  | pkt arr => exact ⟨rfl, rfl⟩
  | map mapId a => exact ⟨rfl, rfl⟩
  | bss key arr hkey => exact ⟨rfl, rfl⟩
  | pktLen t => exact ⟨rfl, rfl⟩
  | rxIndex t => exact ⟨rfl, rfl⟩

theorem Z3State.SamePorts.trans {a b c : Z3State maps} (h : a.SamePorts b) (h' : b.SamePorts c) :
    a.SamePorts c := ⟨h'.ingress.trans h.ingress, h'.egress.trans h.egress⟩

theorem samePorts_walkItem {F : ForwardContext maps} {b : Nat} {w w' : Walk maps} {item : Item}
    (h : F.walkItem b w item = .ok w') : w.curSigma.SamePorts w'.curSigma := by
  cases item with
  | src e =>
      simp only [ForwardContext.walkItem] at h
      split at h
      · cases h
        exact ⟨rfl, rfl⟩
      · obtain ⟨_, -, h⟩ := bind_eq_ok.mp h
        cases h
        exact ⟨rfl, rfl⟩
  | act e =>
      have hrec : w.curSigma.SamePorts (w.record e).curSigma := by
        unfold Walk.record
        split <;> exact ⟨rfl, rfl⟩
      rw [ForwardContext.walkItem_act] at h
      split at h
      · cases h
        exact hrec
      · obtain ⟨sigma, hsigma, h⟩ := bind_eq_ok.mp h
        cases h
        exact hrec.trans (samePorts_event hsigma)

end Ports

namespace ForwardContext

section Beside

variable {F : ForwardContext maps} {w w' : Walk maps} {p : PathRun maps}
variable {done rest : List Nat} {last : Option Nat} {b c : Nat}

theorem enterBlock_same (F : ForwardContext maps) (w : Walk maps) (b : Nat) :
    (F.enterBlock w b).info = w.info ∧ (F.enterBlock w b).memo = w.memo ∧
      (F.enterBlock w b).lookupSigma = w.lookupSigma ∧ (F.enterBlock w b).curBlock = some b := by
  unfold enterBlock
  split
  exact ⟨rfl, rfl, rfl, rfl⟩

/-- The walk and the path after the blocks `done`, when `last` is the last of them on the
path. -/
structure Beside (F : ForwardContext maps) (m : ZModel) (done : List Nat) (last : Option Nat)
    (w : Walk maps) (p : PathRun maps) : Prop where
  front : F.Front w m done last
  runs : F.Runs m w p
  next : p.next = nextBlock F w m last
  start : last = none → p.sigma = F.initSt
  stands : ∀ q, last = some q → (F.stateAt w q).Agree m p.sigma
  reached : ∀ b, w.Reached m b ↔ (p.ends b).isSome
  ports : ∀ b info, w.info b = some info → F.initSt.SamePorts info.sigma

theorem beside_start (F : ForwardContext maps) (m : ZModel) :
    Beside F m [] none { curSigma := F.initSt } { sigma := F.initSt } where
  front := front_start F m rfl
  runs := ⟨.nil, fun _ => .none, fun _ => rfl, nofun, nofun, nofun⟩
  next := rfl
  start _ := rfl
  stands := nofun
  reached b := by
    refine iff_of_false ?_ (by simp)
    rintro ⟨info, hinfo, -⟩
    cases hinfo
  ports := nofun

/-- A block of the path is entered in a state that agrees with the one of the path. -/
theorem Beside.entry_agree (hlinked : WellLinked F.blocks) (h : Beside F m done last w p)
    (hb : b < F.blocks.length) (hnew : b ∉ done) (hnext : nextBlock F w m last = some b) :
    (F.enterBlock w b).curSigma.Agree m p.sigma := by
  have hcontribs := (h.front.contribs hlinked hb hnew).1
  cases last with
  | none =>
      obtain rfl := Option.some.inj hnext
      rw [h.start rfl]
      exact .refl _
  | some q =>
      obtain ⟨info, g, hinfo, pre, post, hsplit, htrue, hpre, hpost⟩ := hcontribs q rfl hnext
      have hzero : b ≠ 0 := by
        rintro rfl
        exact hnew (h.front.entry.mpr rfl)
      have hports := h.ports q info hinfo
      have hmerged : (F.enterBlock w b).curSigma = mergeSigma F.identity F.initSt (F.contribs w b) := by
        unfold enterBlock
        rw [if_neg hzero]
      have hstate : F.stateAt w q = info.sigma := by simp [stateAt, hinfo]
      rw [hmerged, hsplit]
      exact (mergeSigma_agree m F.identity F.initSt htrue hpre hpost hports.ingress
        hports.egress).trans (hstate ▸ h.stands q rfl)

/-- Every state that a block is entered in has the indices of the entry state. -/
theorem Beside.entry_ports (h : Beside F m done last w p) (b : Nat) :
    F.initSt.SamePorts (F.enterBlock w b).curSigma := by
  have hcontribs : ∀ c ∈ F.contribs w b, F.initSt.SamePorts c.2 := by
    intro c hc
    rw [contribs_eq] at hc
    obtain ⟨q, -, hc⟩ := List.mem_flatMap.mp hc
    unfold contribsFrom at hc
    split at hc
    · rename_i pb pi _ hpi
      split at hc
      · cases hc
      · obtain ⟨g, -, rfl⟩ := List.mem_map.mp hc
        exact h.ports q pi hpi
    · cases hc
  have hmerged : F.initSt.SamePorts (mergeSigma F.identity F.initSt (F.contribs w b)) := by
    generalize F.contribs w b = cs at hcontribs
    unfold mergeSigma
    split
    · exact ⟨rfl, rfl⟩
    · exact hcontribs (_, _) (List.mem_singleton.mpr rfl)
    · exact ⟨rfl, rfl⟩
  unfold enterBlock
  split
  rename_i heq
  split at heq
  · cases heq
    exact ⟨rfl, rfl⟩
  · cases heq
    exact hmerged

/-- The walk and the path at the start of a block. -/
theorem Beside.inBlock (h : Beside F m done last w p) {sigma : Z3State maps}
    (hsigma : (F.enterBlock w b).curSigma.Agree m sigma) :
    F.InBlock m b (F.enterBlock w b) { p with sigma := sigma } := by
  obtain ⟨hinfo, hmemo, hlookup, hcur⟩ := enterBlock_same F w b
  refine inBlock_of_curSigma ⟨?_, ?_, ?_, ?_, ?_, h.runs.sizedPath⟩ hcur hsigma
  · rw [hmemo]
    exact h.runs.memo
  · rw [hlookup]
    exact h.runs.lookupSigma
  · rw [hinfo]
    exact h.runs.left
  · unfold stateAt
    rw [hinfo]
    exact h.runs.ends
  · rw [hmemo]
    exact h.runs.sized

section Visit

variable {block : Block} {final : Walk maps} {info : ForwardInfo maps} {own : PathRun maps}

theorem stateAt_of_ne (hinfo : w'.info = Function.update w.info b (some info)) (hc : c ≠ b) :
    F.stateAt w' c = F.stateAt w c := by
  unfold stateAt
  rw [hinfo, Function.update_of_ne hc]

theorem stateAt_visited (hinfo : w'.info = Function.update w.info b (some info)) :
    F.stateAt w' b = info.sigma := by
  unfold stateAt
  rw [hinfo, Function.update_self]
  rfl

theorem edgeGuard_of_ne (hinfo : w'.info = Function.update w.info b (some info)) {e : Edge}
    (he : e.1 ≠ b) : edgeGuard w'.info e = edgeGuard w.info e := by
  unfold edgeGuard
  rw [hinfo, Function.update_of_ne he]

/-- A visited block keeps the indices of the entry state. -/
theorem Beside.ports_visit (h : Beside F m done last w p)
    (hvisit : Visits (F := F) w w' b block final info) :
    ∀ c i, w'.info c = some i → F.initSt.SamePorts i.sigma := by
  intro c i hi
  rw [hvisit.info] at hi
  by_cases hc : c = b
  · subst hc
    rw [Function.update_self] at hi
    obtain rfl := Option.some.inj hi
    rw [hvisit.sigma]
    exact foldlM_ok (fun _ w => F.initSt.SamePorts w.curSigma) (h.entry_ports c)
      (fun _ _ _ _ hs _ hstep => hs.trans (samePorts_walkItem hstep)) hvisit.items
  · rw [Function.update_of_ne hc] at hi
    exact h.ports c i hi

/-- The path leaves a block by the edge whose guard is true. -/
theorem left_visited (hvisit : Visits (F := F) w w' b block final info)
    (hreach : info.reach.eval m = true) {e : Edge} (he : e.1 = b) :
    (own.leave b block (info.edgeTaken.eval m)).left e = (edgeGuard w'.info e).eval m := by
  obtain ⟨p, kind⟩ := e
  obtain rfl : p = b := he
  have hedges := edgeGuards_edges m hvisit.edges
  simp only [PathRun.leave, edgeGuard, hvisit.info, Function.update_self, if_true,
    Guard.eval_and, hreach, Bool.true_and]
  cases hbranch : block.branch with
  | true => cases kind <;> simp [hedges.branch hbranch]
  | false =>
      obtain ⟨hT, hF⟩ := hedges.single hbranch
      cases kind <;> simp [hT, hF]

/-- What both know after a block of the path. -/
theorem runs_enter (h : F.KeptBeside m b (F.enterBlock w b) final p own) (hruns : F.Runs m w p)
    (hvisit : Visits (F := F) w w' b block final info) (hreach : info.reach.eval m = true) :
    F.Runs m w' (own.leave b block (info.edgeTaken.eval m)) := by
  have hinfo := hvisit.info
  have hend := h.inBlock.curSigma (h.place.curBlock.trans (enterBlock_same F w b).2.2.2)
  have hresult := hvisit.result
  refine ⟨?_, ?_, fun e => ?_, fun c sigma hc => ?_, ?_, h.inBlock.runs.sizedPath⟩
  · rw [hresult]
    exact h.inBlock.runs.memo
  · rw [hresult]
    exact h.inBlock.runs.lookupSigma
  · by_cases he : e.1 = b
    · exact left_visited hvisit hreach he
    · rw [edgeGuard_of_ne hinfo he, ← hruns.left e, ← h.path.left]
      simp [PathRun.leave, he]
  · by_cases hcb : c = b
    · subst hcb
      simp only [PathRun.leave, Function.update_self, Option.some.injEq] at hc
      rw [stateAt_visited hinfo, hvisit.sigma, ← hc]
      exact hend
    · simp only [PathRun.leave, Function.update_of_ne hcb, h.path.ends] at hc
      rw [stateAt_of_ne hinfo hcb]
      exact hruns.ends c sigma hc
  · rw [hresult]
    exact h.inBlock.runs.sized

/-- What both know after a block beside the path. -/
theorem runs_pass {sigma : Z3State maps}
    (h : F.KeptBeside m b (F.enterBlock w b) final { p with sigma := sigma } own) (hruns : F.Runs m w p)
    (hvisit : Visits (F := F) w w' b block final info) (hreach : info.reach.eval m = false)
    (hnone : w.info b = none) (hends : p.ends b = none) :
    F.Runs m w' { p with memo := own.memo, lookupSigma := own.lookupSigma } := by
  have hinfo := hvisit.info
  have hresult := hvisit.result
  refine ⟨?_, ?_, fun e => ?_, fun c sigma hc => ?_, ?_, h.inBlock.runs.sizedPath⟩
  · rw [hresult]
    exact h.inBlock.runs.memo
  · rw [hresult]
    exact h.inBlock.runs.lookupSigma
  · by_cases he : e.1 = b
    · have hleft := hruns.left e
      unfold edgeGuard at hleft ⊢
      rw [he, hnone] at hleft
      rw [hinfo, he, Function.update_self]
      dsimp only
      rw [hleft, Guard.eval_and, hreach]
      rfl
    · rw [edgeGuard_of_ne hinfo he]
      exact hruns.left e
  · have hcb : c ≠ b := by
      rintro rfl
      rw [hends] at hc
      cases hc
    rw [stateAt_of_ne hinfo hcb]
    exact hruns.ends c sigma hc
  · rw [hresult]
    exact h.inBlock.runs.sized

variable (hlinked : WellLinked F.blocks) (h : Beside F m done last w p)
  (hblock : F.blocks[b]? = some block) (hnew : b ∉ done)
  (hvisit : Visits (F := F) w w' b block final info)

include hlinked h hblock hnew hvisit

/-- A visited block is reached if the path comes to it. -/
theorem Beside.reach_iff : info.reach.eval m = true ↔ p.next = some b := by
  rw [hvisit.reach, h.next]
  exact h.front.reach_enterBlock hlinked (List.getElem?_eq_some_iff.mp hblock).1 hnew

variable (hfold : ∀ r, F.fold r = false)
  (hfree : ∀ block ∈ F.blocks, ∀ c, block.cond = some c → c.WidthFree)

include hfold hfree

/-- The path executes a block that it comes to. -/
theorem Beside.enter (hlater : ∀ u ∈ succsOf F.blocks b, u ∉ done ++ [b])
    (hnext : p.next = some b) :
    ∃ p', F.pathBlock m w p b = .ok p' ∧ Beside F m (done ++ [b]) (some b) w' p' := by
  have hb : b < F.blocks.length := (List.getElem?_eq_some_iff.mp hblock).1
  have hinfo := hvisit.info
  have hplace := enterBlock_same F w b
  have hreach := (h.reach_iff hlinked hblock hnew hvisit).mpr hnext
  rw [h.next] at hnext
  have hentry := h.inBlock (h.entry_agree hlinked hb hnew hnext)
  have hitems := pathItems_agree (w := w) hfold hentry hplace.1 hplace.2.2.2 block.items
  rw [hvisit.items] at hitems
  obtain ⟨own, hown, hkept⟩ := hitems.ok_left
  have htaken := pathTaken_eq hfold hkept.inBlock (hkept.place.info.trans hplace.1)
    (hkept.place.curBlock.trans hplace.2.2.2) (hfree block (List.mem_of_getElem? hblock))
    hvisit.edges
  have hruns := runs_enter hkept h.runs hvisit hreach
  have hfront := h.front.enter hnew hinfo hblock (edgeGuards_edges m hvisit.edges)
    (iff_of_true hreach hnext) hlater hnext
  have hreached : w'.Reached m b := (reached_visited hinfo).mpr hreach
  refine ⟨own.leave b block (info.edgeTaken.eval m), ?_, hfront, hruns, ?_, nofun, ?_, ?_,
    h.ports_visit hvisit⟩
  · unfold pathBlock
    simp only [hblock, h.next, if_pos hnext]
    rw [hown]
    exact congrArg (· >>= fun taken => pure (own.leave b block taken)) htaken
  · simp only [PathRun.leave, nextBlock, leads, hblock, hinfo, Function.update_self]
  · rintro q hq
    obtain rfl := Option.some.inj hq
    exact hruns.ends _ _ (by simp [PathRun.leave])
  · intro c
    by_cases hcb : c = b
    · subst hcb
      simp [PathRun.leave, hreached]
    · simp only [PathRun.leave, Function.update_of_ne hcb, hkept.path.ends,
        reached_of_ne hinfo hcb, h.reached c]

omit hfree in
/-- A block beside the path leaves the path where it is. -/
theorem Beside.pass (hnext : p.next ≠ some b) :
    ∃ p', F.pathBlock m w p b = .ok p' ∧ Beside F m (done ++ [b]) last w' p' := by
  have hinfo := hvisit.info
  have hplace := enterBlock_same F w b
  have hreach := (h.reach_iff hlinked hblock hnew hvisit).not.mpr hnext
  have hentry := h.inBlock (b := b) (.refl (F.enterBlock w b).curSigma)
  have hitems := pathItems_agree (w := w) hfold hentry hplace.1 hplace.2.2.2 block.items
  rw [hvisit.items] at hitems
  obtain ⟨own, hown, hkept⟩ := hitems.ok_left
  have hnone : w.info b = none := by
    have hvisited := (h.front.visited b).not.mpr hnew
    simpa using hvisited
  have hends : p.ends b = none := by
    have hnot : ¬w.Reached m b := by
      rintro ⟨i, hi, -⟩
      rw [hnone] at hi
      cases hi
    simpa using (h.reached b).not.mp hnot
  have hfront := h.front.pass hnew hinfo hblock (edgeGuards_edges m hvisit.edges)
    (iff_of_false hreach (h.next ▸ hnext)) (h.next ▸ hnext)
  refine ⟨{ p with memo := own.memo, lookupSigma := own.lookupSigma }, ?_, hfront,
    runs_pass hkept h.runs hvisit (by simpa using hreach) hnone hends, ?_, h.start, ?_, ?_,
    h.ports_visit hvisit⟩
  · unfold pathBlock
    simp only [hblock, if_neg hnext]
    rw [hown]
    rfl
  · exact h.next.trans (h.front.nextBlock_visit hnew hinfo).symm
  · intro q hq
    rw [stateAt_of_ne hinfo (h.front.ne_of_reached hnew (h.front.stands q hq))]
    exact h.stands q hq
  · intro c
    by_cases hcb : c = b
    · subst hcb
      rw [reached_visited hinfo, hends]
      simpa using hreach
    · rw [reached_of_ne hinfo hcb]
      exact h.reached c

/-- One more block of the walk: the path goes on beside it. -/
theorem Beside.step (hlater : ∀ u ∈ succsOf F.blocks b, u ∉ done ++ [b]) :
    ∃ p' last', F.pathBlock m w p b = .ok p' ∧ Beside F m (done ++ [b]) last' w' p' := by
  by_cases hnext : p.next = some b
  · obtain ⟨p', hp', hbeside⟩ := h.enter hlinked hblock hnew hvisit hfold hfree hlater hnext
    exact ⟨p', _, hp', hbeside⟩
  · obtain ⟨p', hp', hbeside⟩ := h.pass hlinked hblock hnew hvisit hfold hnext
    exact ⟨p', _, hp', hbeside⟩

end Visit

/-- The path runs beside a walk that ends. -/
theorem beside_walk (hfold : ∀ r, F.fold r = false) (hlinked : WellLinked F.blocks)
    (hfree : ∀ block ∈ F.blocks, ∀ c, block.cond = some c → c.WidthFree)
    {kept order : List Nat} (hkept : ∀ b ∈ kept, b < F.blocks.length)
    (horder : WalkOrder F.blocks kept order) (hrun : order.foldlM F.walkBlock
      { curSigma := F.initSt } = .ok w) :
    ∃ s : Walk maps × PathRun maps,
      order.foldlM (F.pathStep m) ({ curSigma := F.initSt }, { sigma := F.initSt }) = .ok s ∧
        s.1 = w ∧ ∃ last, Beside F m order last w s.2 := by
  refine foldlM_beside (fun done w (s : Walk maps × PathRun maps) =>
    s.1 = w ∧ ∃ last, Beside F m done last w s.2) ⟨rfl, none, beside_start F m⟩ ?_ hrun
  rintro done b rest w ⟨w₀, p⟩ w' hsplit ⟨rfl, last, hbeside⟩ hstep
  have hmem : ∀ c ∈ done ++ [b], c ∈ order := by
    intro c hc
    rw [hsplit]
    rcases List.mem_append.mp hc with hc | hc
    · exact List.mem_append_left _ hc
    · exact List.mem_append_right _ (by simpa using .inl (List.mem_singleton.mp hc))
  have hnodup := horder.nodup
  rw [hsplit] at hnodup
  have hnew : b ∉ done := fun hb =>
    (List.nodup_middle.mp hnodup).notMem (List.mem_append_left _ hb)
  have hlater : ∀ u ∈ succsOf F.blocks b, u ∉ done ++ [b] := by
    intro u hu hdone
    have hrest := horder.later done b rest hsplit u hu ((horder.mem u).mp (hmem u hdone))
    have hnodup' : ((done ++ [b]) ++ rest).Nodup := by simpa using hnodup
    exact (List.nodup_append.mp hnodup').2.2 u hdone u hrest rfl
  have hb : b < F.blocks.length := hkept b ((horder.mem b).mp (hmem b (by simp)))
  have hblock : F.blocks[b]? = some F.blocks[b] := List.getElem?_eq_getElem hb
  obtain ⟨final, info, hvisit⟩ := visits_walkBlock hblock hstep
  obtain ⟨p', last', hp', hbeside'⟩ := hbeside.step hlinked hblock hnew hvisit hfold hfree hlater
  refine ⟨(w', p'), ?_, rfl, last', hbeside'⟩
  unfold pathStep
  simp only [hstep, hp']
  rfl

end Beside

end ForwardContext

open ForwardContext in
/-- Reach conditions and merged states refine the execution of paths, unless a test of a tail
call compares a slot from 256 on with a 64-bit operation. On an acyclic graph the order of
the walk exists; when the walk ends, so does the path of every model, the blocks whose reach
condition is true are those that the path executes, and the state at the end of each agrees
with the one that the path leaves there. -/
theorem walk_refines_path_if (F : ForwardContext maps) (hfold : ∀ r, F.fold r = false)
    (hlinked : WellLinked F.blocks) (hacyclic : Acyclic F.blocks) (hentry : 0 < F.blocks.length)
    (hfree : ∀ block ∈ F.blocks, ∀ c, block.cond = some c → c.WidthFree)
    (targets : Option (List Nat)) (m : ZModel) :
    ∃ order, topoOrder F.blocks (keptBlocks F.blocks targets) = .ok order ∧
      ∀ w, F.walk order = .ok w → ∃ p, F.pathRun m order = .ok p ∧ ∀ b,
        ((w.reachAt b).eval m = true ↔ (p.ends b).isSome) ∧
        ∀ sigma, p.ends b = some sigma → (F.stateAt w b).Agree m sigma := by
  have hkept := kept_keptBlocks hentry targets
  obtain ⟨order, horder⟩ := topoOrder_ok hlinked hacyclic hkept
  have hwalk := walkOrder_of_topoOrder hkept horder
  refine ⟨order, horder, fun w hw => ?_⟩
  obtain ⟨w', hrun, hw⟩ := bind_eq_ok.mp hw
  cases hw
  obtain ⟨s, hs, -, last, hbeside⟩ := beside_walk (m := m) hfold hlinked hfree
    (fun b hb => (mem_forwardReachable.mp (hkept.live b hb)).2) hwalk hrun
  refine ⟨s.2, by simp only [pathRun, hs]; rfl, fun b => ⟨?_, hbeside.runs.ends b⟩⟩
  rw [← hbeside.reached b]
  cases hinfo : w'.info b with
  | none => simp [Walk.reachAt, hinfo, Walk.Reached]
  | some info => simp [Walk.reachAt, hinfo, Walk.Reached]

/-- `if (ctx->rx_queue_index != 0) ctx->rx_queue_index = 5; return 2` -/
def queueReset : List Instr :=
  [{ exitInstr with opcodeClass := .LDX, opcodeMode := .MEM, srcReg := 1, dstReg := 2, offset := 16 },
   { exitInstr with jmpCode := .JEQ, dstReg := 2, offset := 1 },
   { exitInstr with opcodeClass := .ST, opcodeMode := .MEM, dstReg := 1, offset := 16, imm := 5 },
   { exitInstr with opcodeClass := .ALU64, aluCode := .MOV, imm := 2 },
   exitInstr]

theorem acyclic_queueReset : Acyclic (trackedBlocks queueReset) := by
  refine ⟨id, fun a b hb => ?_⟩
  have ha : a < 3 := lt_of_mem_succsOf hb
  have hall : ∀ a < 3, ∀ b ∈ succsOf (trackedBlocks queueReset) a, a < b := by decide
  exact hall a ha b hb

theorem widthFree_queueReset : ∀ block ∈ trackedBlocks queueReset, ∀ c, block.cond = some c →
    c.WidthFree := by
  have hcmp : ((trackedBlocks queueReset).all fun b => match b.cond with
      | none | some (.cmp ..) => true
      | _ => false) = true := by decide +kernel
  intro block hmem c hc
  have hblock := List.all_eq_true.mp hcmp block hmem
  rw [hc] at hblock
  cases c with
  | cmp => trivial
  | _ => cases hblock

open ForwardContext in
theorem walk_refines_path_if_queue :
    ∃ w p, (plainContext (trackedBlocks queueReset)).walk [0, 1, 2] = .ok w ∧
      (plainContext (trackedBlocks queueReset)).pathRun onQueueThree [0, 1, 2] = .ok p ∧
      ((w.reachAt 2).eval onQueueThree = true ↔ (p.ends 2).isSome) ∧
      ∀ sigma, p.ends 2 = some sigma →
        ((plainContext (trackedBlocks queueReset)).stateAt w 2).Agree onQueueThree sigma := by
  obtain ⟨cfg, hcfg, hsame⟩ : ∃ cfg, buildCfg queueReset [] = .ok cfg ∧
      SameGraph cfg (trackedBlocks queueReset) := ⟨_, rfl, rfl⟩
  obtain ⟨order, horder, hpath⟩ := walk_refines_path_if (plainContext (trackedBlocks queueReset))
    (fun _ => rfl) (wellLinked_of_sameGraph hsame (wellLinked_buildCfg hcfg)) acyclic_queueReset
    (by decide) widthFree_queueReset none onQueueThree
  have hthree : topoOrder (trackedBlocks queueReset)
      (keptBlocks (trackedBlocks queueReset) none) = .ok [0, 1, 2] := by decide +kernel
  obtain rfl : order = [0, 1, 2] := Except.ok.inj (horder.symm.trans hthree)
  have hends : ((plainContext (trackedBlocks queueReset)).walk [0, 1, 2]).toBool = true := by
    decide +kernel
  obtain ⟨w, hw⟩ := exists_ok hends
  obtain ⟨p, hp, hall⟩ := hpath w hw
  exact ⟨w, p, hw, hp, hall 2⟩

/-- `if (ctx->rx_queue_index != 0) ctx->rx_queue_index = 2;`
`bpf_tail_call(ctx, progs, ctx->rx_queue_index + 256)`, with a callee in slot 65794 -/
def queueCall : Program where
  instrs :=
    [{ exitInstr with opcodeClass := .LDX, opcodeMode := .MEM, srcReg := 1, dstReg := 2, offset := 16 },
     { exitInstr with jmpCode := .JEQ, dstReg := 2, offset := 3 },
     { exitInstr with opcodeClass := .ALU64, aluCode := .MOV, dstReg := 4, imm := 1 },
     { exitInstr with opcodeClass := .ALU64, dstReg := 4, imm := 1 },
     { exitInstr with opcodeClass := .STX, opcodeMode := .MEM, srcReg := 4, dstReg := 1, offset := 16 },
     { exitInstr with opcodeClass := .LDX, opcodeMode := .MEM, srcReg := 1, dstReg := 3, offset := 16 },
     { exitInstr with opcodeClass := .ALU64, dstReg := 3, imm := 256 },
     { exitInstr with opcodeClass := .LD, opcodeSz := .DW, dstReg := 2, wideInstr := true,
                      reloc := some (.map 0) },
     { exitInstr with jmpCode := .CALL, imm := 12 },
     exitInstr,
     { exitInstr with opcodeClass := .ALU64, aluCode := .MOV, imm := 2 },
     exitInstr]
  maps := [⟨"progs", 3, 4, 4, 70000⟩]
  progs := [⟨"main", 0, 9, none, none⟩, ⟨"callee", 10, 11, some 65794, some 0⟩]
  rodata := []

/-- A context that keeps every effect of the program in the state. -/
def stateContext (P : Program) : ForwardContext P.maps :=
  { blocks := trackedOf P, initSt := makeInitState P.maps, relevant := fun _ => true
    fold := fun _ => false, anc := fun _ => none, prunePaths := true
    simplifier := idleSimplifier, identity := .equal, fuel := 1 }

/-- Received on queue 3, the path has the index 258, a literal in its own state, so that the
test is made at 16 bits and the slot 65794 is 258 too. In the merged state the index is no
literal and the test is made at 64 bits. -/
theorem walk_misses_path : ∃ cfg t w p, buildCfg queueCall.instrs queueCall.progs = .ok cfg ∧
    track queueCall cfg = .ok t ∧ trackedOf queueCall = t.blocks ∧
    (stateContext queueCall).walk [0, 1, 2, 4, 3] = .ok w ∧
    (stateContext queueCall).pathRun onQueueThree [0, 1, 2, 4, 3] = .ok p ∧
    topoOrder (trackedOf queueCall) (keptBlocks (trackedOf queueCall) none) = .ok [0, 1, 2, 4, 3] ∧
    (w.reachAt 4).eval onQueueThree = false ∧
    (p.ends 4).isSome = true ∧
    (w.reachAt 3).eval onQueueThree = true ∧
    (p.ends 3).isSome = false := by
  obtain ⟨cfg, t, hcfg, htrack, hblocks⟩ : ∃ cfg t,
      buildCfg queueCall.instrs queueCall.progs = .ok cfg ∧ track queueCall cfg = .ok t ∧
      trackedOf queueCall = t.blocks := ⟨_, _, rfl, rfl, rfl⟩
  have hrun : okAnd ((stateContext queueCall).walk [0, 1, 2, 4, 3]) (fun w =>
      okAnd ((stateContext queueCall).pathRun onQueueThree [0, 1, 2, 4, 3]) fun p =>
        decide ((w.reachAt 4).eval onQueueThree = false ∧ (p.ends 4).isSome = true ∧
          (w.reachAt 3).eval onQueueThree = true ∧ (p.ends 3).isSome = false)) = true := by
    decide +kernel
  obtain ⟨w, hw, hrun⟩ := okAnd_eq_true hrun
  obtain ⟨p, hp, hrun⟩ := okAnd_eq_true hrun
  exact ⟨cfg, t, w, p, hcfg, htrack, hblocks, hw, hp, by decide +kernel, of_decide_eq_true hrun⟩

end Hornet
