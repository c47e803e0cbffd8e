import Hornet.Bpf.Cfg
import Hornet.Track.Tracker
import Hornet.Verify.Spec

/-!
The decision procedure. Every condition becomes one query for each block it is
asked of; the verdict is put together from the solver's answers. The answers are
a sequence that the solver gives one after the other, and a `Session` records
which query each of them was given to.

A proof verdict is backed when every live block was refuted. The checker takes
an answer that is neither sat nor unsat for a refutation and passes over exits
without a return value, so this holds of a check exactly when neither decides it.
-/

namespace Hornet

open Smt

inductive Answer where
  | sat | unsat | unknown
  deriving DecidableEq, Repr

inductive Verdict where
  | sat | unsat | holds | violated
  deriving DecidableEq, Repr

/-- The verdicts that state a property of all executions. -/
def Verdict.isProof : Verdict → Bool
  | .holds | .unsat => true
  | .sat | .violated => false

inductive ResultKind where
  | blockCondition | exitCondition | reachability
  deriving DecidableEq, Repr

structure CheckResult where
  name : String
  kind : ResultKind
  verdict : Verdict
  detail : String := ""

/-- A query that was asked about a block, with its answer. -/
structure Asked where
  block : Nat
  query : Guard
  answer : Answer

/-- The queries asked so far, and the blocks whose vacuity is known. -/
structure Session where
  asked : List Asked := []
  vacuous : Nat → Option Bool := fun _ => none

section Decide

variable (answers : Nat → Answer)

/-- Whether the solver finds a model of the guard and the body. -/
def decideQuery (s : Session) (block : Nat) (guard body : Guard) : Bool × Session :=
  match guard.and body with
  | .ff => (false, s)
  | query =>
      let answer := answers s.asked.length
      (answer = .sat, { s with asked := s.asked ++ [⟨block, query, answer⟩] })

end Decide

/-- The exit blocks. -/
def exitBlocks (blocks : List Block) : List Nat :=
  (blocks.filter (·.kind = .exit)).map (·.num)

/-- The verdict of a check, given whether the solver found a model of any query. -/
def AssertMode.verdict (found : Bool) : AssertMode → Verdict
  | .exists => if found then .sat else .unsat
  | .all => if found then .violated else .holds

/-- What a condition asks the solver: an instance, or a violation. -/
def AssertMode.body (t : ZTerm .bool) : AssertMode → Guard
  | .exists => .term t
  | .all => (Guard.term t).not

namespace ForwardContext

variable {maps : List MapInfo} (F : ForwardContext maps) (w : Walk maps)
variable (answers : Nat → Answer)

/-- What the block, or a block before it, does that the model leaves out. -/
def droppedEffects (block : Nat) : List String :=
  let reached := (block :: (F.anc block).getD []).dedup.insertionSort (· ≤ ·)
  let live := reached.filter fun b => (w.info b).isSome && w.reachAt b ≠ .ff
  let actions := live.flatMap fun b => ((F.blocks[b]?).map (·.actions)).getD []
  -- the texts in the list are longer than the names it is searched for, so a note
  -- is added at every action
  actions.filterMap fun e => match e.action with
    | .perfEventOutput => some "perf_event_output: recorded but has no state effect"
    | .adjustMeta _ => some "adjust_meta: recorded, but the metadata area is not modelled"
    | _ => none

def isVacuous (s : Session) (block : Nat) : Bool × Session :=
  match w.reachAt block with
  | .tt => (false, s)
  | .ff => (true, s)
  | .term r =>
      match s.vacuous block with
      | some v => (v, s)
      | none =>
          let (found, s) := decideQuery answers s block (.term r) .tt
          (!found, { s with vacuous := Function.update s.vacuous block (some !found) })

def checkBlockCondition (bc : BlockCondition) (s : Session) :
    Except LowerError (CheckResult × Session) := do
  let r := w.reachAt bc.block
  match w.info bc.block with
  | none =>
      pure (⟨bc.name, .blockCondition, bc.assertMode.verdict false,
        s!"block {bc.block} unreachable"⟩, s)
  | some info =>
      if r = .ff then
        pure (⟨bc.name, .blockCondition, bc.assertMode.verdict false,
          s!"block {bc.block} unreachable"⟩, s)
      else do
        let body ← bc.cond.toZ3 (F.condState w bc.block)
        let (found, s) := decideQuery answers s bc.block r (bc.assertMode.body body)
        let verdict := bc.assertMode.verdict found
        let detail := s!"block={bc.block}" ++
          (if info.imprecise then " (imprecise: unrecorded branch condition)" else "") ++
          String.join ((F.droppedEffects w bc.block).map fun note => s!" (UNMODELLED: {note})")
        if verdict.isProof then
          let (vacuous, s) := isVacuous w answers s bc.block
          pure (⟨bc.name, .blockCondition, verdict, detail ++
            (if vacuous then " (VACUOUS: block is unreachable under this input)" else "")⟩, s)
        else pure (⟨bc.name, .blockCondition, verdict, detail⟩, s)

/-- The exits that the walk has visited and not shown to be unreachable. -/
def liveExits : List Nat :=
  (exitBlocks F.blocks).filter fun b => (w.info b).isSome && w.reachAt b ≠ .ff

/-- Asks the condition of one exit after the others. An exit without a return
value is passed over. -/
def checkExit (ec : ExitCondition) (acc : List (Nat × Bool) × Session) (b : Nat) :
    Except LowerError (List (Nat × Bool) × Session) := do
  match ← F.exitState w b with
  | none => pure acc
  | some st => do
      let body ← ec.cond.toZ3 st
      let (found, s) := decideQuery answers acc.2 b (w.reachAt b) (ec.assertMode.body body)
      pure (acc.1 ++ [(b, found)], s)

def checkExitCondition (ec : ExitCondition) (s : Session) :
    Except LowerError (CheckResult × Session) := do
  let live := F.liveExits w
  if live = [] then
    pure (⟨ec.name, .exitCondition, ec.assertMode.verdict false, "no reachable exit"⟩, s)
  else do
    -- for each exit whether the solver found a model there
    let (perExit, s) ← live.foldlM (F.checkExit w answers ec) ([], s)
    let ok (found : Bool) := match ec.assertMode with
      | .exists => found
      | .all => !found
    let exits := (perExit.insertionSort fun x y => x.1 ≤ y.1).map fun x =>
      s!"{x.1}=" ++ (if ok x.2 then "ok" else "bad")
    let hit := match perExit.find? (·.2) with
      | some x => s!" | witness at exit {x.1}"
      | none => ""
    let notes := (live.flatMap (F.droppedEffects w)).dedup.insertionSort (· ≤ ·)
    let detail := "exits: " ++ ", ".intercalate exits ++ hit ++
      String.join (notes.map fun note => s!" (UNMODELLED: {note})")
    pure (⟨ec.name, .exitCondition, ec.assertMode.verdict (perExit.any (·.2)), detail⟩, s)

/-! ### What a verdict is backed by -/

def retExprAt (b : Nat) : Option Expr := (F.blocks[b]?).bind Block.retExpr

/-- The live exits that have a return value. -/
def boundExits : List Nat := (F.liveExits w).filter fun b => (F.retExprAt b).isSome

/-- `a` is the query of an exit. -/
def AsksExit (ec : ExitCondition) (b : Nat) (a : Asked) : Prop :=
  ∃ st body, F.exitState w b = .ok (some st) ∧ ec.cond.toZ3 st = .ok body ∧
    a.block = b ∧ a.query = (w.reachAt b).and (ec.assertMode.body body)

/-- `a` is the query of an exit, and the solver refuted it. -/
def RefutesExit (ec : ExitCondition) (b : Nat) (a : Asked) : Prop :=
  F.AsksExit w ec b a ∧ a.answer = .unsat

/-- `a` is the query of a block, and the solver refuted it. -/
def RefutesBlock (bc : BlockCondition) (a : Asked) : Prop :=
  ∃ body, bc.cond.toZ3 (F.condState w bc.block) = .ok body ∧
    a = ⟨bc.block, (w.reachAt bc.block).and (bc.assertMode.body body), .unsat⟩

end ForwardContext

theorem AssertMode.isProof_verdict (mode : AssertMode) (found : Bool) :
    (mode.verdict found).isProof = !found := by
  cases mode <;> cases found <;> rfl

theorem Guard.and_body_ne_ff {g : Guard} (h : g ≠ .ff) (mode : AssertMode) (t : ZTerm .bool) :
    g.and (mode.body t) ≠ .ff := by
  cases g <;> cases mode <;> first | exact absurd rfl h | simp [Guard.and, AssertMode.body, Guard.not]

/-- A query about a live block is put to the solver, which answers it next. -/
theorem decideQuery_body (answers : Nat → Answer) (s : Session) (block : Nat) {g : Guard}
    (h : g ≠ .ff) (mode : AssertMode) (t : ZTerm .bool) :
    decideQuery answers s block g (mode.body t) =
      (decide (answers s.asked.length = .sat),
        { s with asked := s.asked ++
          [⟨block, g.and (mode.body t), answers s.asked.length⟩] }) := by
  have hquery := Guard.and_body_ne_ff h mode t
  unfold decideQuery
  split
  · rename_i hff
    exact absurd hff hquery
  · rfl

namespace ForwardContext

variable {maps : List MapInfo} {F : ForwardContext maps} {w : Walk maps}
variable {answers : Nat → Answer} {ec : ExitCondition} {bc : BlockCondition} {s : Session}

theorem exitState_isSome {b : Nat} {o : Option (CondState maps)}
    (h : F.exitState w b = .ok o) : o.isSome = (F.retExprAt b).isSome := by
  simp only [exitState, retState] at h
  unfold retExprAt
  cases hret : (F.blocks[b]?).bind Block.retExpr with
  | none =>
      simp only [hret] at h
      cases h
      rfl
  | some ret =>
      simp only [hret] at h
      cases hr : exprToZ3 (F.hooked w) (some b) (F.stateAt w b) ret with
      | error e =>
          rw [hr] at h
          cases h
      | ok r =>
          rw [hr] at h
          cases h
          rfl

/-- What the checker has done after the exits `done`: it has asked exactly those with
a return value, in order, and it has found a model where an answer was sat. -/
structure ExitsAsked (F : ForwardContext maps) (w : Walk maps) (answers : Nat → Answer)
    (ec : ExitCondition) (s : Session) (done : List Nat)
    (acc : List (Nat × Bool) × Session) (new : List Asked) : Prop where
  asked : acc.2.asked = s.asked ++ new
  queries : List.Forall₂ (F.AsksExit w ec) (done.filter fun b => (F.retExprAt b).isSome) new
  answered : ∀ i (h : i < new.length), (new[i]).answer = answers (s.asked.length + i)
  found : acc.1.any (·.2) = new.any (·.answer = .sat)

theorem ExitsAsked.checkExit {done : List Nat} {acc acc' : List (Nat × Bool) × Session}
    {new : List Asked} (h : ExitsAsked F w answers ec s done acc new) {b : Nat}
    (hlive : w.reachAt b ≠ .ff) (hrun : F.checkExit w answers ec acc b = .ok acc') :
    ∃ new', ExitsAsked F w answers ec s (done ++ [b]) acc' new' := by
  unfold ForwardContext.checkExit at hrun
  obtain ⟨o, hstate, hrun⟩ := Lib.bind_eq_ok.mp hrun
  have hbound := exitState_isSome hstate
  cases o with
  | none =>
      cases hrun
      refine ⟨new, h.asked, ?_, h.answered, h.found⟩
      rw [List.filter_append, List.filter_cons_of_neg (by simp [← hbound])]
      simpa using h.queries
  | some st =>
      obtain ⟨body, hbody, hrun⟩ := Lib.bind_eq_ok.mp hrun
      rw [decideQuery_body answers acc.2 b hlive] at hrun
      cases hrun
      have hlen : acc.2.asked.length = s.asked.length + new.length := by
        rw [h.asked, List.length_append]
      refine ⟨new ++ [⟨b, (w.reachAt b).and (ec.assertMode.body body),
        answers acc.2.asked.length⟩], ?_, ?_, ?_, ?_⟩
      · simp only [h.asked, List.append_assoc]
      · rw [List.filter_append, List.filter_cons_of_pos (by simp [← hbound])]
        exact List.rel_append h.queries
          (.cons ⟨st, body, hstate, hbody, rfl, rfl⟩ .nil)
      · intro i hi
        rw [List.getElem_append]
        split
        · exact h.answered i _
        · have : i = new.length := by simp at hi; omega
          subst this
          simp [hlen]
      · simp [List.any_append, h.found]

theorem exitsAsked_of_run {acc : List (Nat × Bool) × Session}
    (hrun : (F.liveExits w).foldlM (F.checkExit w answers ec) ([], s) = .ok acc) :
    ∃ new, ExitsAsked F w answers ec s (F.liveExits w) acc new := by
  apply Lib.foldlM_ok (fun done acc => ∃ new, ExitsAsked F w answers ec s done acc new)
    ⟨[], by simp, .nil, by simp, rfl⟩ ?_ hrun
  rintro done b acc acc' ⟨new, hasked⟩ hmem hstep
  have hlive : w.reachAt b ≠ .ff := by
    have := (List.mem_filter.mp hmem).2
    simp only [Bool.and_eq_true, decide_eq_true_eq] at this
    exact this.2
  exact hasked.checkExit hlive hstep

/-- All answers given to the exits are unsat, and no exit was passed over. -/
theorem ExitsAsked.refuted_iff {acc : List (Nat × Bool) × Session} {new : List Asked}
    (h : ExitsAsked F w answers ec s (F.liveExits w) acc new) :
    List.Forall₂ (F.RefutesExit w ec) (F.liveExits w) new ↔
      (∀ b ∈ F.liveExits w, F.retExprAt b ≠ none) ∧
        ∀ i < (F.boundExits w).length, answers (s.asked.length + i) = .unsat := by
  have hlen : (F.boundExits w).length = new.length := h.queries.length_eq
  constructor
  · intro hrefuted
    have hall : (F.boundExits w).length = (F.liveExits w).length :=
      hlen.trans hrefuted.length_eq.symm
    have hbound : ∀ b ∈ F.liveExits w, (F.retExprAt b).isSome = true :=
      List.length_filter_eq_length_iff.mp hall
    refine ⟨fun b hb => Option.isSome_iff_ne_none.mp (hbound b hb), fun i hi => ?_⟩
    rw [hlen] at hi
    have hlive : i < (F.liveExits w).length := hrefuted.length_eq ▸ hi
    rw [← h.answered i hi]
    exact (List.forall₂_iff_get.mp hrefuted).2 i hlive hi |>.2
  · rintro ⟨hbound, hunsat⟩
    have hfilter : F.boundExits w = F.liveExits w :=
      List.filter_eq_self.mpr fun b hb => Option.isSome_iff_ne_none.mpr (hbound b hb)
    have hqueries : List.Forall₂ (F.AsksExit w ec) (F.liveExits w) new := hfilter ▸ h.queries
    refine List.forall₂_iff_get.mpr ⟨hqueries.length_eq, fun i hi hi' => ?_⟩
    refine ⟨(List.forall₂_iff_get.mp hqueries).2 i hi hi', ?_⟩
    exact (h.answered i hi').trans (hunsat i (hlen ▸ hi'))

theorem ExitsAsked.found_iff {acc : List (Nat × Bool) × Session} {new : List Asked}
    (h : ExitsAsked F w answers ec s (F.liveExits w) acc new) :
    acc.1.any (·.2) = true ↔
      ∃ i < (F.boundExits w).length, answers (s.asked.length + i) = .sat := by
  have hlen : (F.boundExits w).length = new.length := h.queries.length_eq
  rw [h.found, List.any_eq_true]
  constructor
  · rintro ⟨a, ha, hsat⟩
    obtain ⟨i, hi, rfl⟩ := List.mem_iff_getElem.mp ha
    refine ⟨i, hlen ▸ hi, ?_⟩
    rw [← h.answered i hi]
    exact of_decide_eq_true hsat
  · rintro ⟨i, hi, hsat⟩
    rw [hlen] at hi
    exact ⟨new[i], List.getElem_mem hi, decide_eq_true ((h.answered i hi).trans hsat)⟩

/-- The check of an exit condition, with the queries it asked. -/
theorem checkExitCondition_asked {r : CheckResult} {s' : Session}
    (h : F.checkExitCondition w answers ec s = .ok (r, s')) :
    ∃ acc new, ExitsAsked F w answers ec s (F.liveExits w) acc new ∧
      r.verdict = ec.assertMode.verdict (acc.1.any (·.2)) ∧ s' = acc.2 := by
  unfold checkExitCondition at h
  simp only at h
  split at h
  · rename_i hempty
    cases h
    have hasked : ExitsAsked F w answers ec s [] ([], s) [] :=
      ⟨by simp, .nil, by simp, rfl⟩
    exact ⟨([], s), [], hempty ▸ hasked, rfl, rfl⟩
  · obtain ⟨acc, hrun, hres⟩ := Lib.bind_eq_ok.mp h
    cases hres
    obtain ⟨new, hasked⟩ := exitsAsked_of_run hrun
    exact ⟨acc, new, hasked, rfl, rfl⟩

/-- The verdict of an exit condition is backed exactly when some exit was found to
decide it, or no exit lacks a return value and every answer was decided. -/
theorem exit_verdict_backed_iff {r : CheckResult} {s' : Session}
    (h : F.checkExitCondition w answers ec s = .ok (r, s')) :
    (r.verdict.isProof = true →
        List.Forall₂ (F.RefutesExit w ec) (F.liveExits w) (s'.asked.drop s.asked.length)) ↔
      (∃ i < (F.boundExits w).length, answers (s.asked.length + i) = .sat) ∨
        ((∀ b ∈ F.liveExits w, F.retExprAt b ≠ none) ∧
          ∀ i < (F.boundExits w).length, answers (s.asked.length + i) ≠ .unknown) := by
  obtain ⟨acc, new, hasked, hverdict, rfl⟩ := checkExitCondition_asked h
  have hnew : acc.2.asked.drop s.asked.length = new := by rw [hasked.asked, List.drop_left]
  rw [hnew, hasked.refuted_iff, hverdict, AssertMode.isProof_verdict]
  cases hfound : acc.1.any (·.2) with
  | true =>
      have hsat := hasked.found_iff.mp hfound
      exact ⟨fun _ => .inl hsat, fun _ hproof => by cases hproof⟩
  | false =>
      have hnone : ¬∃ i < (F.boundExits w).length, answers (s.asked.length + i) = .sat :=
        fun hsat => by
          have := hasked.found_iff.mpr hsat
          rw [hfound] at this
          cases this
      constructor
      · intro hbacked
        obtain ⟨hbound, hunsat⟩ := hbacked rfl
        exact .inr ⟨hbound, fun i hi hunknown => by
          rw [hunsat i hi] at hunknown
          cases hunknown⟩
      · rintro (hsat | ⟨hbound, hknown⟩) -
        · exact absurd hsat hnone
        · refine ⟨hbound, fun i hi => ?_⟩
          cases hanswer : answers (s.asked.length + i) with
          | sat => exact absurd ⟨i, hi, hanswer⟩ hnone
          | unsat => rfl
          | unknown => exact absurd hanswer (hknown i hi)

theorem curBlock_walk {order : List Nat} (h : F.walk order = .ok w) : w.curBlock = none := by
  unfold walk at h
  obtain ⟨w', -, hw⟩ := Lib.bind_eq_ok.mp h
  cases hw
  rfl

theorem reachAt_of_info_none {order : List Nat} (h : F.walk order = .ok w) {b : Nat}
    (hinfo : w.info b = none) : w.reachAt b = .ff := by
  simp [Walk.reachAt, curBlock_walk h, hinfo]

/-- Looking for vacuity only adds queries. -/
theorem asked_isVacuous (w : Walk maps) (answers : Nat → Answer) (s : Session) (b : Nat) :
    s.asked <+: (isVacuous w answers s b).2.asked := by
  unfold isVacuous
  split
  · exact List.prefix_refl _
  · exact List.prefix_refl _
  · split
    · exact List.prefix_refl _
    · exact List.prefix_append _ _

/-- The check of a condition of a live block: its query is asked first. -/
theorem checkBlockCondition_asked {order : List Nat} (hw : F.walk order = .ok w)
    {r : CheckResult} {s' : Session}
    (hlive : w.reachAt bc.block ≠ .ff) (h : F.checkBlockCondition w answers bc s = .ok (r, s')) :
    ∃ body, bc.cond.toZ3 (F.condState w bc.block) = .ok body ∧
      r.verdict = bc.assertMode.verdict (answers s.asked.length = .sat) ∧
      s'.asked[s.asked.length]? = some ⟨bc.block,
        (w.reachAt bc.block).and (bc.assertMode.body body), answers s.asked.length⟩ := by
  unfold checkBlockCondition at h
  simp only at h
  split at h
  · rename_i hinfo
    exact absurd (reachAt_of_info_none hw hinfo) hlive
  · rw [if_neg hlive] at h
    obtain ⟨body, hbody, h⟩ := Lib.bind_eq_ok.mp h
    rw [decideQuery_body answers s bc.block hlive] at h
    refine ⟨body, hbody, ?_⟩
    dsimp only at h
    split at h
    · cases h
      refine ⟨rfl, ?_⟩
      obtain ⟨more, hmore⟩ := asked_isVacuous w answers { s with asked := s.asked ++ [⟨bc.block,
        (w.reachAt bc.block).and (bc.assertMode.body body), answers s.asked.length⟩] } bc.block
      simp [← hmore]
    · cases h
      simp

/-- The verdict of a block condition is backed exactly when the block is known to be
unreachable or the answer to its query was decided. -/
theorem block_verdict_backed_iff {order : List Nat} (hw : F.walk order = .ok w)
    {r : CheckResult} {s' : Session}
    (h : F.checkBlockCondition w answers bc s = .ok (r, s')) :
    (r.verdict.isProof = true → w.reachAt bc.block = .ff ∨
        ∃ a, s'.asked[s.asked.length]? = some a ∧ F.RefutesBlock w bc a) ↔
      w.reachAt bc.block = .ff ∨ answers s.asked.length ≠ .unknown := by
  by_cases hlive : w.reachAt bc.block = .ff
  · exact ⟨fun _ => .inl hlive, fun _ _ => .inl hlive⟩
  obtain ⟨body, hbody, hverdict, hasked⟩ := checkBlockCondition_asked hw hlive h
  rw [hverdict, AssertMode.isProof_verdict, hasked]
  cases hanswer : answers s.asked.length with
  | sat => simp
  | unsat =>
      refine iff_of_true (fun _ => .inr ⟨_, rfl, body, hbody, rfl⟩) (by simp)
  | unknown =>
      refine iff_of_false ?_ (by simp [hlive])
      intro hbacked
      rcases hbacked (by simp) with hff | ⟨a, ha, body', -, hrefuted⟩
      · exact hlive hff
      · have hunsat := congrArg Asked.answer ((Option.some.inj ha).trans hrefuted)
        cases hunsat

end ForwardContext

open ForwardContext in
/-- A proof verdict is backed by refutations exactly when the answers and the exits
let it be: some exit was found to decide the condition, or no answer is unknown and no
live exit lacks a return value; for a block condition, no answer is unknown. -/
theorem proof_verdict_backed_iff {maps : List MapInfo} (F : ForwardContext maps)
    {order : List Nat} {w : Walk maps} (hw : F.walk order = .ok w) (answers : Nat → Answer)
    (s : Session) :
    (∀ ec r s', F.checkExitCondition w answers ec s = .ok (r, s') →
      ((r.verdict.isProof = true →
          List.Forall₂ (F.RefutesExit w ec) (F.liveExits w) (s'.asked.drop s.asked.length)) ↔
        (∃ i < (F.boundExits w).length, answers (s.asked.length + i) = .sat) ∨
          ((∀ b ∈ F.liveExits w, F.retExprAt b ≠ none) ∧
            ∀ i < (F.boundExits w).length, answers (s.asked.length + i) ≠ .unknown))) ∧
    (∀ bc r s', F.checkBlockCondition w answers bc s = .ok (r, s') →
      ((r.verdict.isProof = true → w.reachAt bc.block = .ff ∨
          ∃ a, s'.asked[s.asked.length]? = some a ∧ F.RefutesBlock w bc a) ↔
        w.reachAt bc.block = .ff ∨ answers s.asked.length ≠ .unknown)) :=
  ⟨fun _ _ _ h => exit_verdict_backed_iff h, fun _ _ _ h => block_verdict_backed_iff hw h⟩

/-- The blocks of a program without maps, as the tracker leaves them. -/
def trackedBlocks (instrs : List Instr) : List Block :=
  match buildCfg instrs [] with
  | .error _ => []
  | .ok cfg =>
      match track { instrs := instrs, maps := [], progs := [], rodata := [] } cfg with
      | .error _ => []
      | .ok t => t.blocks

/-- The blocks of a program, as the tracker leaves them. -/
def trackedOf (P : Program) : List Block :=
  match buildCfg P.instrs P.progs with
  | .error _ => []
  | .ok cfg =>
      match track P cfg with
      | .error _ => []
      | .ok t => t.blocks

def exitInstr : Instr :=
  { opcodeClass := .JMP, opcodeS := .imm, aluCode := .ADD, jmpCode := .EXIT, opcodeSz := .W
    opcodeMode := .IMM, srcReg := 0, dstReg := 0, offset := 0, imm := 0, wideInstr := false
    nextImm := 0, reloc := none }

/-- `r0 = value; exit` -/
def returnInstrs (value : Int) : List Instr :=
  [{ exitInstr with opcodeClass := .ALU64, aluCode := .MOV, imm := value }, exitInstr]

/-- A context without maps that keeps every effect in the state. -/
def plainContext (blocks : List Block) : ForwardContext [] :=
  { blocks := blocks, initSt := makeInitState [], relevant := fun _ => true
    fold := fun _ => false, anc := fun _ => none, prunePaths := true
    simplifier := idleSimplifier, identity := .equal, fuel := 1 }

/-- A packet that is received on queue 3. -/
def onQueueThree : ZModel := Model.ofNats fun v => if v = .rxQueueIndex0 then some 3 else none

/-- Every execution returns `value`. -/
def returns (value : Int) : ExitCondition := ⟨"returns", .all, .leaf (.ret .eq value)⟩

/-- Some execution is received on queue 0. -/
def onQueueZero : BlockCondition := ⟨"on queue 0", 0, .exists, .leaf (.scalar .rxIndex 0)⟩

open ForwardContext in
theorem proof_verdict_backed_iff_unsat :
    ∃ w r s' r' s'', (plainContext (trackedBlocks (returnInstrs 2))).walk [0] = .ok w ∧
      (plainContext (trackedBlocks (returnInstrs 2))).checkExitCondition w (fun _ => .unsat)
        (returns 2) {} = .ok (r, s') ∧ r.verdict = .holds ∧
      (plainContext (trackedBlocks (returnInstrs 2))).checkBlockCondition w (fun _ => .unsat)
        onQueueZero {} = .ok (r', s'') ∧ r'.verdict = .unsat ∧
      List.Forall₂ ((plainContext (trackedBlocks (returnInstrs 2))).RefutesExit w (returns 2))
        ((plainContext (trackedBlocks (returnInstrs 2))).liveExits w) s'.asked ∧
      (w.reachAt 0 = .ff ∨ ∃ a, s''.asked[0]? = some a ∧
        (plainContext (trackedBlocks (returnInstrs 2))).RefutesBlock w onQueueZero a) := by
  obtain ⟨w, r, s', r', s'', hw, hexit, hr, hblock, hr', hbound⟩ :
      ∃ w r s' r' s'', (plainContext (trackedBlocks (returnInstrs 2))).walk [0] = .ok w ∧
        (plainContext (trackedBlocks (returnInstrs 2))).checkExitCondition w (fun _ => .unsat)
          (returns 2) {} = .ok (r, s') ∧ r.verdict = .holds ∧
        (plainContext (trackedBlocks (returnInstrs 2))).checkBlockCondition w (fun _ => .unsat)
          onQueueZero {} = .ok (r', s'') ∧ r'.verdict = .unsat ∧
        ((plainContext (trackedBlocks (returnInstrs 2))).liveExits w).all (fun b =>
          ((plainContext (trackedBlocks (returnInstrs 2))).retExprAt b).isSome) = true :=
    ⟨_, _, _, _, _, rfl, rfl, rfl, rfl, rfl, rfl⟩
  have hbacked := proof_verdict_backed_iff (plainContext (trackedBlocks (returnInstrs 2))) hw
    (fun _ => .unsat) {}
  refine ⟨w, r, s', r', s'', hw, hexit, hr, hblock, hr', ?_, ?_⟩
  · refine (hbacked.1 _ r s' hexit).mpr (.inr ⟨fun b hb => ?_, fun _ _ => by simp⟩) (by rw [hr]; rfl)
    exact Option.isSome_iff_ne_none.mp (List.all_eq_true.mp hbound b hb)
  · exact (hbacked.2 _ r' s'' hblock).mpr (.inr (by simp)) (by rw [hr']; rfl)

open ForwardContext in
/-- An unknown answer becomes a proof of a condition that no execution meets, and an
exit without a return value becomes one without any query. -/
theorem proof_verdict_unbacked :
    (∃ w r s', (plainContext (trackedBlocks (returnInstrs 2))).walk [0] = .ok w ∧
      (plainContext (trackedBlocks (returnInstrs 2))).checkExitCondition w (fun _ => .unknown)
        (returns 1) {} = .ok (r, s') ∧ r.verdict = .holds ∧
      ¬ List.Forall₂ ((plainContext (trackedBlocks (returnInstrs 2))).RefutesExit w (returns 1))
        ((plainContext (trackedBlocks (returnInstrs 2))).liveExits w) s'.asked) ∧
    (∃ w r s', (plainContext (trackedBlocks [exitInstr])).walk [0] = .ok w ∧
      (plainContext (trackedBlocks [exitInstr])).checkExitCondition w (fun _ => .sat)
        (returns 1) {} = .ok (r, s') ∧ r.verdict = .holds ∧
      ¬ List.Forall₂ ((plainContext (trackedBlocks [exitInstr])).RefutesExit w (returns 1))
        ((plainContext (trackedBlocks [exitInstr])).liveExits w) s'.asked) := by
  refine ⟨⟨_, _, _, rfl, rfl, rfl, fun h => ?_⟩, ⟨_, _, _, rfl, rfl, rfl, fun h => ?_⟩⟩
  · cases h with
    | cons hrefuted _ => exact absurd hrefuted.2 (by decide)
  · cases h

end Hornet
