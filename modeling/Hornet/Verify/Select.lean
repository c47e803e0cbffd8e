import Hornet.Verify.Verdicts

/-!
Checks of a part of a policy. The conditions that are asked for by name have the results that
they have when the whole policy is checked, in the context of the whole policy as well as in
one that is built for them alone.
-/

namespace Hornet

open Smt Lib

variable {maps : List MapInfo}

namespace Checks

def names (p : Checks) : List String :=
  p.blockConditions.map (·.name) ++ p.exitConditions.map (·.name)

/-- The names that a policy does not have, and those that it has. -/
structure NoSuchConditions where
  missing : List String
  known : List String
  deriving DecidableEq, Repr

/-- The conditions of a policy with the given names. -/
def select (p : Checks) (only : Option (List String)) : Except NoSuchConditions Checks :=
  match only with
  | none => pure p
  | some names =>
      let missing := names.filter (· ∉ p.names)
      if missing ≠ [] then
        throw ⟨missing.dedup.insertionSort (· ≤ ·), p.names.dedup.insertionSort (· ≤ ·)⟩
      else
        pure ⟨p.blockConditions.filter (·.name ∈ names), p.exitConditions.filter (·.name ∈ names)⟩

/-- The name is asked for. -/
def Asks (only : Option (List String)) (name : String) : Bool := only.all (·.contains name)

theorem select_ok {p q : Checks} {only : Option (List String)} (h : p.select only = .ok q) :
    q.blockConditions = p.blockConditions.filter (fun bc => Asks only bc.name) ∧
      q.exitConditions = p.exitConditions.filter fun ec => Asks only ec.name := by
  cases only with
  | none =>
      cases h
      exact ⟨(List.filter_eq_self.mpr fun _ _ => rfl).symm,
        (List.filter_eq_self.mpr fun _ _ => rfl).symm⟩
  | some names =>
      rcases ite_eq_ok h with ⟨-, h⟩ | ⟨-, h⟩
      · cases h
      · cases h
        simp only [Asks, Option.all_some, List.contains_eq_mem]
        exact ⟨trivial, trivial⟩

theorem condTrees_select {p q : Checks} {only : Option (List String)} (h : p.select only = .ok q) :
    ∀ t ∈ q.condTrees, t ∈ p.condTrees := by
  obtain ⟨hblocks, hexits⟩ := select_ok h
  intro t ht
  rw [condTrees, hblocks, hexits] at ht
  rcases List.mem_append.mp ht with ht | ht
  · obtain ⟨bc, hbc, rfl⟩ := List.mem_map.mp ht
    exact List.mem_append_left _ (List.mem_map_of_mem (List.mem_of_mem_filter hbc))
  · obtain ⟨ec, hec, rfl⟩ := List.mem_map.mp ht
    exact List.mem_append_right _ (List.mem_map_of_mem (List.mem_of_mem_filter hec))

end Checks

section Results

variable {F : ForwardContext maps} {w : Walk maps}

theorem name_blockResult (bc : BlockCondition) (found reached : Bool) :
    (F.blockResult w bc found reached).name = bc.name := by
  cases hinfo : w.info bc.block with
  | none => rw [ForwardContext.blockResult_unvisited hinfo]
  | some info =>
      by_cases hff : w.reachAt bc.block = .ff
      · rw [ForwardContext.blockResult_dead hff]
      · rw [ForwardContext.blockResult_live hinfo hff]

theorem name_exitResult (ec : ExitCondition) (found : Nat → Bool) :
    (F.exitResult w ec found).name = ec.name := by
  unfold ForwardContext.exitResult
  dsimp only
  split <;> rfl

/-- The results of selected conditions in one context. -/
theorem check_select {p q : Checks} {only : Option (List String)} (hselect : p.select only = .ok q)
    {answers answers' : Nat → Answer} {out out' : List CheckResult} {s s' : Session}
    (h : check F w answers p = .ok (out, s)) (hright : ∀ a ∈ s.asked, a.Correct)
    (h' : check F w answers' q = .ok (out', s')) (hright' : ∀ a ∈ s'.asked, a.Correct) :
    out' = out.filter fun r => Checks.Asks only r.name := by
  obtain ⟨hblocks, hexits⟩ := Checks.select_ok hselect
  rw [ForwardContext.check_exact h hright, ForwardContext.check_exact h' hright', hblocks, hexits,
    List.filter_append, List.filter_map, List.filter_map]
  congr 2
  · apply List.filter_congr
    intro bc _
    exact congrArg (Checks.Asks only) (name_blockResult bc _ _).symm
  · apply List.filter_congr
    intro ec _
    exact congrArg (Checks.Asks only) (name_exitResult ec _).symm

/-- The conditions of a policy that are asked for by name have the results they have when the
whole policy is checked: in a context built for a list of policies with this one among them,
and in a context built for the selected conditions alone that walks the same blocks. -/
theorem check_select_eq (c : ContextInput maps) (hentry : 0 < c.blocks.length)
    {policies : List Checks} {p q : Checks} (hp : p ∈ policies) {only : Option (List String)}
    (hselect : p.select only = .ok q) {reachAll reachAll' : Bool}
    (htargets : contextTargets policies reachAll = contextTargets [q] reachAll')
    {F G : ForwardContext maps} {order order' : List Nat}
    (hF : contextFor c policies reachAll = .ok (F, order))
    (hG : contextFor c [q] reachAll' = .ok (G, order'))
    (hrec : Recorded c.blocks order q.condTrees) {w v : Walk maps} (hw : F.walk order = .ok w)
    (hv : G.walk order' = .ok v) {answers : Nat → Answer} {out : List CheckResult} {s : Session}
    (h : check F w answers p = .ok (out, s)) (hright : ∀ a ∈ s.asked, a.Correct)
    {answers' : Nat → Answer} {out' : List CheckResult} {s' : Session}
    (h' : check F w answers' q = .ok (out', s') ∨ check G v answers' q = .ok (out', s'))
    (hright' : ∀ a ∈ s'.asked, a.Correct) :
    out' = out.filter fun r => Checks.Asks only r.name := by
  suffices hsame : check F w answers' q = check G v answers' q by
    rw [← hsame, or_self] at h'
    exact check_select hselect h hright h' hright'
  have hconds : ∀ t ∈ q.condTrees, t ∈ policies.flatMap Checks.condTrees :=
    fun t ht => List.mem_flatMap.mpr ⟨p, hp, Checks.condTrees_select hselect t ht⟩
  exact check_same c hentry hconds htargets hF hG hrec hw hv answers'

end Results

/-! ### An example -/

def resetInput : ContextInput [] :=
  { blocks := trackedBlocks queueReset, initSt := makeInitState [], prunePaths := true
    hybridFold := true, simplifier := groundSimplifier, identity := .equal, fuel := 1 }

/-- The exit condition of `resetChecks`. -/
def resetReturns : Checks := ⟨[], [returns 1]⟩

theorem recorded_queueReset : Recorded (trackedBlocks queueReset) [0, 1, 2] resetReturns.condTrees where
  numbered := by decide +kernel
  old := by decide +kernel
  keyed := by decide +kernel
  keyedReads := by decide +kernel
  identified := by decide +kernel

theorem contextFor_resetInput (policies : List Checks)
    (htargets : contextTargets policies false = none) :
    contextFor resetInput policies false =
      .ok (resetInput.contextAlong none (policies.flatMap Checks.condTrees) [0, 1, 2], [0, 1, 2]) := by
  have htopo : topoOrder resetInput.blocks (keptBlocks resetInput.blocks none) = .ok [0, 1, 2] :=
    topoOrder_queueReset
  simp only [contextFor, ContextInput.build, htargets, htopo]
  rfl

/-- The context of a policy for the program that `resetChecks` is about. -/
def resetContext (p : Checks) : ForwardContext [] :=
  resetInput.contextAlong none ([p].flatMap Checks.condTrees) [0, 1, 2]

/-- A check in it, with queries that a packet received on queue 3 answers. -/
def resetAnswered (p : Checks) (verdicts : List Verdict) : Bool :=
  okAnd ((resetContext p).walk [0, 1, 2]) fun w =>
    okAnd (check (resetContext p) w (fun _ => .sat) p) fun r =>
      decide (r.1.map (·.verdict) = verdicts) && r.2.asked.all fun a =>
        decide (a.answer = .sat) && a.query.eval (Model.ofNats fun v =>
          if v = .rxQueueIndex0 then some 3 else none)

theorem of_resetAnswered {p : Checks} {verdicts : List Verdict} (h : resetAnswered p verdicts = true) :
    ∃ w out s, (resetContext p).walk [0, 1, 2] = .ok w ∧
      check (resetContext p) w (fun _ => .sat) p = .ok (out, s) ∧ out.map (·.verdict) = verdicts ∧
      ∀ a ∈ s.asked, a.Correct := by
  obtain ⟨w, hw, h⟩ := okAnd_eq_true h
  obtain ⟨⟨out, s⟩, hcheck, h⟩ := okAnd_eq_true h
  obtain ⟨hverdicts, hright⟩ := Bool.and_eq_true_iff.mp h
  exact ⟨w, out, s, hw, hcheck, of_decide_eq_true hverdicts, correct_of_model _ hright⟩

/-- All executions return 1, of the two conditions of `resetChecks`, asked for by its name. -/
theorem check_select_eq_returns : ∃ F w out s out' s',
    contextFor resetInput [resetChecks] false = .ok (F, [0, 1, 2]) ∧
    resetChecks.select (some ["returns"]) = .ok resetReturns ∧
    F.walk [0, 1, 2] = .ok w ∧ check F w (fun _ => .sat) resetChecks = .ok (out, s) ∧
    out.map (·.verdict) = [.sat, .violated] ∧ out'.map (·.verdict) = [.violated] ∧
    (∃ G v, contextFor resetInput [resetReturns] false = .ok (G, [0, 1, 2]) ∧
      G.walk [0, 1, 2] = .ok v ∧ check G v (fun _ => .sat) resetReturns = .ok (out', s')) ∧
    out' = out.filter fun r => Checks.Asks (some ["returns"]) r.name := by
  have hF := contextFor_resetInput [resetChecks] (by decide +kernel)
  have hG := contextFor_resetInput [resetReturns] (by decide +kernel)
  have hselect : resetChecks.select (some ["returns"]) = .ok resetReturns := by rfl
  have htargets : contextTargets [resetChecks] false = contextTargets [resetReturns] false := by
    decide +kernel
  have hentry : 0 < resetInput.blocks.length := by decide +kernel
  obtain ⟨w, out, s, hw, hcheck, hverdicts, hright⟩ :=
    of_resetAnswered (show resetAnswered resetChecks [.sat, .violated] = true by decide +kernel)
  obtain ⟨v, out', s', hv, hcheck', hverdicts', hright'⟩ :=
    of_resetAnswered (show resetAnswered resetReturns [.violated] = true by decide +kernel)
  refine ⟨_, w, out, s, out', s', hF, hselect, hw, hcheck, hverdicts, hverdicts',
    ⟨_, v, hG, hv, hcheck'⟩, ?_⟩
  exact check_select_eq resetInput hentry (List.mem_singleton_self _) hselect htargets hF hG
    recorded_queueReset hw hv hcheck hright (.inr hcheck') hright'

end Hornet
