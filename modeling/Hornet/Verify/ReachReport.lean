import Hornet.Verify.Checker
import Hornet.Verify.Witness

/-!
The reachability report. It asks one query for each block, in the order of the block
numbers, and takes a block for dead without a query when all its predecessors are dead
or were not visited. A block that some model reaches has a predecessor that the model
reaches, so the shortcut gives the answer of the query, whatever the numbering.
-/

namespace Hornet

open Smt

def BlockKind.text : BlockKind → String
  | .branch => "branch"
  | .jump => "jump"
  | .exit => "exit"
  | .fall => "fall"

/-- What the report has found: the dead blocks and the results. -/
structure ReachReport where
  dead : List Nat := []
  out : List CheckResult := []
  session : Session := {}

/-- The answer of a solver that is right: it finds a model exactly if there is one. -/
def Asked.Correct (a : Asked) : Prop :=
  match a.answer with
  | .sat => ∃ m, a.query.eval m = true
  | .unsat => ∀ m, a.query.eval m = false
  | .unknown => False

namespace ForwardContext

variable {maps : List MapInfo} (F : ForwardContext maps) (w : Walk maps)

/-- The blocks of the context in ascending order. -/
def infoBlocks : List Nat := (List.range F.blocks.length).filter fun b => (w.info b).isSome

variable (answers : Nat → Answer)

def reportBlock (entry : Option Nat) (r : ReachReport) (b : Nat) : ReachReport :=
  let preds := predsOf F.blocks b
  let kind := (((F.blocks[b]?).map Block.kind).map BlockKind.text).getD ""
  if some b ≠ entry ∧ preds ≠ [] ∧ ∀ p ∈ preds, p ∈ r.dead ∨ w.info p = none then
    { r with
      dead := b :: r.dead
      out := r.out ++ [⟨s!"block{b}", .reachability, .unsat,
        s!"kind={kind}; every predecessor is dead"⟩] }
  else
    let (live, session) := decideQuery answers r.session b (w.reachAt b) .tt
    { dead := if live then r.dead else b :: r.dead
      out := r.out ++ [⟨s!"block{b}", .reachability, if live then .sat else .unsat,
        s!"kind={kind}"⟩]
      session := session }

def reachReport : ReachReport :=
  let order := F.infoBlocks w
  order.foldl (F.reportBlock w answers order.head?) {}

/-- The blocks that the report finds dead. -/
def deadBlocks : List Nat :=
  ((F.infoBlocks w).zip (F.reachReport w answers).out).filterMap fun x =>
    if x.2.verdict = .unsat then some x.1 else none

variable {F w answers} {m : ZModel} {order : List Nat} {last : Option Nat}

theorem mem_infoBlocks (hfront : Front F w m order last)
    (hbounded : ∀ b ∈ order, b < F.blocks.length) {b : Nat} :
    b ∈ F.infoBlocks w ↔ (w.info b).isSome := by
  unfold infoBlocks
  rw [List.mem_filter, List.mem_range]
  constructor
  · exact fun h => h.2
  · exact fun h => ⟨hbounded b ((hfront.visited b).mp h), h⟩

theorem pairwise_infoBlocks : (F.infoBlocks w).Pairwise (· < ·) :=
  List.pairwise_lt_range.filter _

/-- The entry is the first block of the report. -/
theorem head?_infoBlocks (hentry : 0 < F.blocks.length) (hzero : (w.info 0).isSome) :
    (F.infoBlocks w).head? = some 0 := by
  obtain ⟨n, hn⟩ : ∃ n, F.blocks.length = n + 1 := ⟨F.blocks.length - 1, by omega⟩
  unfold infoBlocks
  rw [hn, List.range_succ_eq_map, List.filter_cons, if_pos hzero]
  rfl

/-- A query that is answered right finds a model exactly if there is one. -/
theorem decideQuery_iff {s : Session} {b : Nat} {g body : Guard}
    (h : ∀ a ∈ (decideQuery answers s b g body).2.asked, a.Correct) :
    (decideQuery answers s b g body).1 = true ↔ ∃ m, (g.and body).eval m = true := by
  unfold decideQuery at h ⊢
  split
  · rename_i hff
    simp [hff]
  · rename_i query hquery
    have hcorrect := h ⟨b, g.and body, answers s.asked.length⟩ (by split <;> simp_all)
    unfold Asked.Correct at hcorrect
    dsimp only at hcorrect ⊢
    cases hanswer : answers s.asked.length with
    | sat => simpa [hanswer] using hcorrect
    | unsat => simpa [hanswer] using hcorrect
    | unknown => simp [hanswer] at hcorrect

theorem asked_decideQuery (s : Session) (b : Nat) (g body : Guard) :
    s.asked <+: (decideQuery answers s b g body).2.asked := by
  unfold decideQuery
  split
  · exact List.prefix_refl _
  · exact List.prefix_append _ _

theorem asked_reportBlock (entry : Option Nat) (r : ReachReport) (b : Nat) :
    r.session.asked <+: (F.reportBlock w answers entry r b).session.asked := by
  unfold reportBlock
  dsimp only
  split
  · exact List.prefix_refl _
  · exact asked_decideQuery _ _ _ _

/-- The result that the direct query of a block gives. -/
structure Reports (w : Walk maps) (b : Nat) (r : CheckResult) : Prop where
  name : r.name = s!"block{b}"
  kind : r.kind = .reachability
  sat : r.verdict = .sat ↔ ∃ m, (w.reachAt b).eval m = true
  unsat : r.verdict = .unsat ↔ ∀ m, (w.reachAt b).eval m = false

/-- The report after the blocks `done`. -/
structure ReportOn (w : Walk maps) (done : List Nat) (r : ReachReport) : Prop where
  out : List.Forall₂ (Reports w) done r.out
  dead : ∀ b ∈ r.dead, ∀ m, (w.reachAt b).eval m = false

/-- A block all of whose predecessors are dead or were left out is dead. -/
theorem dead_of_preds (hlinked : WellLinked F.blocks) (hw : F.walk order = .ok w)
    (hfront : ∀ m, ∃ last, Front F w m order last) (hbounded : ∀ b ∈ order, b < F.blocks.length)
    {dead : List Nat} (hdead : ∀ b ∈ dead, ∀ m, (w.reachAt b).eval m = false) {b : Nat}
    (hb : b ≠ 0) (hpreds : ∀ p ∈ predsOf F.blocks b, p ∈ dead ∨ w.info p = none) (m : ZModel) :
    (w.reachAt b).eval m = false := by
  by_contra hne
  have hreached : w.Reached m b := (reachAt_eval_iff hw m b).mp (by simpa using hne)
  obtain ⟨last, hfront⟩ := hfront m
  rcases hfront.origin b hreached with hzero | ⟨q, hq, hleads⟩
  · exact hb hzero
  · obtain ⟨info, hinfo, -⟩ := hreached
    have hlt : b < F.blocks.length := hbounded b ((hfront.visited b).mp (by rw [hinfo]; rfl))
    have hpred : q ∈ predsOf F.blocks b :=
      (mem_predsOf hlinked hlt).mpr (mem_succsOf_of_leads hleads)
    rcases hpreds q hpred with hin | hnone
    · have hlive := (reachAt_eval_iff hw m q).mpr hq
      rw [hdead q hin m] at hlive
      cases hlive
    · obtain ⟨qinfo, hqinfo, -⟩ := hq
      rw [hnone] at hqinfo
      cases hqinfo

theorem ReportOn.step (hlinked : WellLinked F.blocks) (hw : F.walk order = .ok w)
    (hfront : ∀ m, ∃ last, Front F w m order last) (hbounded : ∀ b ∈ order, b < F.blocks.length)
    {done : List Nat} {r : ReachReport} (h : ReportOn w done r) (b : Nat)
    (hcorrect : ∀ a ∈ (F.reportBlock w answers (some 0) r b).session.asked, a.Correct) :
    ReportOn w (done ++ [b]) (F.reportBlock w answers (some 0) r b) := by
  unfold reportBlock at hcorrect ⊢
  dsimp only at hcorrect ⊢
  split
  · rename_i hshort
    have hdead : ∀ m, (w.reachAt b).eval m = false :=
      dead_of_preds hlinked hw hfront hbounded h.dead (fun hb => hshort.1 (by rw [hb])) hshort.2.2
    constructor
    · refine List.rel_append h.out (.cons ⟨rfl, rfl, ?_, ?_⟩ .nil)
      · simp [hdead]
      · simp [hdead]
    · intro x hx
      rcases List.mem_cons.mp hx with rfl | hx
      · exact hdead
      · exact h.dead x hx
  · rename_i hasks
    rw [if_neg hasks] at hcorrect
    have hlive := decideQuery_iff hcorrect
    have htt : (w.reachAt b).and .tt = w.reachAt b := by cases w.reachAt b <;> rfl
    rw [htt] at hlive
    cases hfound : (decideQuery answers r.session b (w.reachAt b) .tt).1 with
    | true =>
        obtain ⟨m, hm⟩ := hlive.mp hfound
        constructor
        · refine List.rel_append h.out (.cons ⟨rfl, rfl, ?_, ?_⟩ .nil)
          · exact iff_of_true (by simp) ⟨m, hm⟩
          · refine iff_of_false (by simp) fun hall => ?_
            rw [hall m] at hm
            cases hm
        · intro x hx
          rw [if_pos rfl] at hx
          exact h.dead x hx
    | false =>
        have hdead : ∀ m, (w.reachAt b).eval m = false := by
          intro m
          by_contra hne
          have hfound' := hlive.mpr ⟨m, by simpa using hne⟩
          rw [hfound] at hfound'
          cases hfound'
        constructor
        · refine List.rel_append h.out (.cons ⟨rfl, rfl, ?_, ?_⟩ .nil)
          · simp [hdead]
          · simp [hdead]
        · intro x hx
          rw [if_neg (by simp)] at hx
          rcases List.mem_cons.mp hx with rfl | hx
          · exact hdead
          · exact h.dead x hx

theorem reportOn_foldl (hlinked : WellLinked F.blocks) (hw : F.walk order = .ok w)
    (hfront : ∀ m, ∃ last, Front F w m order last) (hbounded : ∀ b ∈ order, b < F.blocks.length)
    (done : List Nat) (hcorrect : ∀ a ∈ (done.foldl (F.reportBlock w answers (some 0))
      {}).session.asked, a.Correct) :
    ReportOn w done (done.foldl (F.reportBlock w answers (some 0)) {}) := by
  induction done using List.reverseRecOn with
  | nil => exact ⟨.nil, nofun⟩
  | append_singleton done b ih =>
      rw [List.foldl_append] at hcorrect ⊢
      apply ReportOn.step hlinked hw hfront hbounded (ih ?_) b hcorrect
      intro a ha
      exact hcorrect a ((asked_reportBlock _ _ _).subset ha)

open Classical in
theorem filterMap_zip_reports {bs : List Nat} {rs : List CheckResult}
    (h : List.Forall₂ (Reports w) bs rs) :
    ((bs.zip rs).filterMap fun x => if x.2.verdict = .unsat then some x.1 else none) =
      bs.filter fun b => decide (∀ m, (w.reachAt b).eval m = false) := by
  induction h with
  | nil => rfl
  | @cons b r bs rs hr _ ih =>
      rw [List.zip_cons_cons, List.filterMap_cons, List.filter_cons, ih]
      by_cases hdead : ∀ m, (w.reachAt b).eval m = false
      · rw [if_pos (hr.unsat.mpr hdead), if_pos (decide_eq_true hdead)]
      · rw [if_neg (fun hunsat => hdead (hr.unsat.mp hunsat)), if_neg (by simpa using hdead)]

end ForwardContext

open Classical ForwardContext in
/-- Over an acyclic graph the walk has an order, and the report of any context lists the
visited blocks once and in ascending order, each with the answer of the direct query; the
dead blocks are those whose reach condition is true in no model. -/
theorem reach_report_direct {maps : List MapInfo} (F : ForwardContext maps)
    (hlinked : WellLinked F.blocks) (hacyclic : Acyclic F.blocks)
    (hentry : 0 < F.blocks.length) (targets : Option (List Nat)) :
    ∃ order, topoOrder F.blocks (keptBlocks F.blocks targets) = .ok order ∧
      ∀ w, F.walk order = .ok w → ∀ answers : Nat → Answer,
        (∀ a ∈ (F.reachReport w answers).session.asked, a.Correct) →
        (F.infoBlocks w).Pairwise (· < ·) ∧
        (∀ b, b ∈ F.infoBlocks w ↔ (w.info b).isSome) ∧
        List.Forall₂ (Reports w) (F.infoBlocks w) (F.reachReport w answers).out ∧
        F.deadBlocks w answers =
          (F.infoBlocks w).filter fun b => decide (∀ m, (w.reachAt b).eval m = false) := by
  have hkept := kept_keptBlocks hentry targets
  obtain ⟨order, horder⟩ := topoOrder_ok hlinked hacyclic hkept
  refine ⟨order, horder, fun w hw answers hcorrect => ?_⟩
  have hwalk := walkOrder_of_topoOrder hkept horder
  have hbounded : ∀ b ∈ order, b < F.blocks.length := fun b hb =>
    (mem_forwardReachable.mp (hkept.live b ((hwalk.mem b).mp hb))).2
  have hfront : ∀ m, ∃ last, Front F w m order last := fun m =>
    front_of_walk hlinked hkept hwalk m hw
  obtain ⟨last, hfirst⟩ := hfront fun s _ => s.zero
  have hzero : (w.info 0).isSome := (hfirst.visited 0).mpr ((hwalk.mem 0).mpr hkept.entry)
  have hreport : ReportOn w (F.infoBlocks w) (F.reachReport w answers) := by
    unfold reachReport at hcorrect ⊢
    dsimp only at hcorrect ⊢
    rw [head?_infoBlocks hentry hzero] at hcorrect ⊢
    exact reportOn_foldl hlinked hw hfront hbounded _ hcorrect
  refine ⟨pairwise_infoBlocks, fun b => mem_infoBlocks hfirst hbounded, hreport.out, ?_⟩
  exact filterMap_zip_reports hreport.out

/-- `r2 = 0; if (r2 == 1) goto dead; return 2; dead: r0 = 1; if (r2 == 0) goto two; exit;
two: exit` -/
def deadTail : List Instr :=
  [{ exitInstr with opcodeClass := .ALU64, aluCode := .MOV, dstReg := 2 },
   { exitInstr with jmpCode := .JEQ, dstReg := 2, imm := 1, offset := 2 },
   { exitInstr with opcodeClass := .ALU64, aluCode := .MOV, imm := 2 },
   exitInstr,
   { exitInstr with opcodeClass := .ALU64, aluCode := .MOV, imm := 1 },
   { exitInstr with jmpCode := .JEQ, dstReg := 2, offset := 1 },
   exitInstr,
   exitInstr]

open ForwardContext in
theorem reach_report_direct_tail : ∃ (F : ForwardContext []) (w : Walk []) (answers : Nat → Answer),
    F.blocks = trackedBlocks deadTail ∧
    (F.reachReport w answers).out.map (·.verdict) = [.sat, .sat, .unsat, .unsat, .unsat] ∧
    List.Forall₂ (Reports w) (F.infoBlocks w) (F.reachReport w answers).out := by
  let F : ForwardContext [] :=
    { plainContext (trackedBlocks deadTail) with simplifier := groundSimplifier }
  obtain ⟨cfg, hcfg, hsame⟩ : ∃ cfg, buildCfg deadTail [] = .ok cfg ∧
      SameGraph cfg (trackedBlocks deadTail) := ⟨_, rfl, rfl⟩
  have hacyclic : Acyclic (trackedBlocks deadTail) := by
    refine ⟨id, fun a b hb => ?_⟩
    have ha : a < 5 := lt_of_mem_succsOf hb
    have hall : ∀ a < 5, ∀ b ∈ succsOf (trackedBlocks deadTail) a, a < b := by decide
    exact hall a ha b hb
  obtain ⟨order, horder, hreport⟩ := reach_report_direct F
    (wellLinked_of_sameGraph hsame (wellLinked_buildCfg hcfg)) hacyclic (by decide) none
  have hfive : topoOrder F.blocks (keptBlocks F.blocks none) = .ok [0, 2, 4, 3, 1] := by
    decide +kernel
  obtain rfl : order = [0, 2, 4, 3, 1] := Except.ok.inj (horder.symm.trans hfive)
  have hrun : Lib.okAnd (F.walk [0, 2, 4, 3, 1]) (fun w =>
      decide ((F.reachReport w fun _ => .sat).out.map (·.verdict) =
          [.sat, .sat, .unsat, .unsat, .unsat]) &&
        (F.reachReport w fun _ => .sat).session.asked.all fun a =>
          decide (a.answer = .sat) && a.query.eval fun s _ => s.zero) = true := by
    decide +kernel
  obtain ⟨w, hw, hrun⟩ := Lib.okAnd_eq_true hrun
  rw [Bool.and_eq_true, List.all_eq_true] at hrun
  refine ⟨F, w, fun _ => .sat, rfl, of_decide_eq_true hrun.1, ?_⟩
  have hcorrect : ∀ a ∈ (F.reachReport w fun _ => .sat).session.asked, a.Correct := by
    intro a ha
    have hasked := hrun.2 a ha
    rw [Bool.and_eq_true, decide_eq_true_eq] at hasked
    unfold Asked.Correct
    rw [hasked.1]
    exact ⟨_, hasked.2⟩
  exact (hreport w hw _ hcorrect).2.2.1

end Hornet
