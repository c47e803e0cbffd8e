import Hornet.Verify.Order
import Hornet.Verify.SlicedChecks

/-!
The context of a check. It is built for the conditions of one or of several policies: these
decide which blocks are walked, which regions are kept and which of them are folded. A
policy that is checked in a context it shares has the results of a context of its own.
-/

namespace Hornet

open Lib

/-- The conditions of a policy. -/
structure Checks where
  blockConditions : List BlockCondition
  exitConditions : List ExitCondition

def Checks.condTrees (p : Checks) : List CondNode :=
  p.blockConditions.map (·.cond) ++ p.exitConditions.map (·.cond)

/-- The blocks that are asked about; without them every live block is kept. -/
def contextTargets (policies : List Checks) (reachAll : Bool) : Option (List Nat) :=
  if policies.isEmpty || reachAll || policies.any (!·.exitConditions.isEmpty) then none
  else
    let asked := policies.flatMap fun p => p.blockConditions.map (·.block)
    some (asked.dedup.insertionSort (· ≤ ·))

/-- What a context is given besides the conditions. -/
structure ContextInput (maps : List MapInfo) where
  blocks : List Block
  initSt : Z3State maps
  prunePaths : Bool
  hybridFold : Bool
  simplifier : Simplifier
  identity : Identity
  fuel : Nat

section Build

variable {maps : List MapInfo} (c : ContextInput maps)

/-- The context over an order of the kept blocks. -/
def ContextInput.contextAlong (targets : Option (List Nat)) (condTrees : List CondNode)
    (order : List Nat) : ForwardContext maps :=
  let slice := keptBlocks c.blocks targets
  let relevant := relevantRegions c.blocks slice condTrees
  let fold := if c.hybridFold then foldEligibleRegions c.blocks slice relevant else ∅
  { blocks := c.blocks, initSt := c.initSt, relevant := (· ∈ relevant), fold := (· ∈ fold)
    anc := ancestors c.blocks order, prunePaths := c.prunePaths, simplifier := c.simplifier
    identity := c.identity, fuel := c.fuel }

/-- A context with the order in which it walks the blocks. -/
def ContextInput.build (targets : Option (List Nat)) (condTrees : List CondNode) :
    Except ForwardError (ForwardContext maps × List Nat) := do
  let order ← topoOrder c.blocks (keptBlocks c.blocks targets)
  pure (c.contextAlong targets condTrees order, order)

def contextFor (policies : List Checks) (reachAll : Bool) :
    Except ForwardError (ForwardContext maps × List Nat) :=
  c.build (contextTargets policies reachAll) (policies.flatMap Checks.condTrees)

/-- Checks one condition after the other. -/
def runChecks {T : Type} (f : T → Session → Except LowerError (CheckResult × Session)) (xs : List T)
    (out : List CheckResult × Session) : Except LowerError (List CheckResult × Session) :=
  xs.foldlM (fun out x => do
    let r ← f x out.2
    pure (out.1 ++ [r.1], r.2)) out

/-- The results of a policy, in the order of its conditions. -/
def check (F : ForwardContext maps) (w : Walk maps) (answers : Nat → Answer) (p : Checks) :
    Except LowerError (List CheckResult × Session) := do
  let out ← runChecks (F.checkBlockCondition w answers) p.blockConditions ([], {})
  runChecks (F.checkExitCondition w answers) p.exitConditions out

end Build

section Shared

variable {maps : List MapInfo} {blocks : List Block} {slice order : List Nat}
variable {condTrees condTrees' : List CondNode}

/-- More conditions need more regions, and the order of the blocks does not matter. -/
theorem Needed.mono (hslice : ∀ b, b ∈ slice → b ∈ order)
    (hconds : ∀ c ∈ condTrees, c ∈ condTrees') {r : StateRegion}
    (h : Needed blocks slice condTrees r) : Needed blocks order condTrees' r := by
  induction h with
  | condition hc hr => exact .condition (hconds _ hc) hr
  | returned hi hb hexit ho hr => exact .returned (hslice _ hi) hb hexit ho hr
  | branch hi hb hc hr => exact .branch (hslice _ hi) hb hc hr
  | operand hi hb he hs _ hr ih => exact .operand (hslice _ hi) hb he hs ih hr

theorem relevantRegions_mono (hslice : ∀ b, b ∈ slice → b ∈ order)
    (hconds : ∀ c ∈ condTrees, c ∈ condTrees') {r : StateRegion}
    (h : r ∈ relevantRegions blocks slice condTrees) : r ∈ relevantRegions blocks order condTrees' :=
  mem_relevantRegions.mpr ((mem_relevantRegions.mp h).mono hslice hconds)

theorem mem_foldEligibleRegions {relevant : Finset StateRegion} {r : StateRegion} :
    r ∈ foldEligibleRegions blocks slice relevant ↔
      r ∈ relevant ∧ (r.isMemory && !regionHasVarOff blocks slice r) = true := Finset.mem_filter

variable {c : ContextInput maps} {targets : Option (List Nat)}

/-- Contexts over one order keep what the conditions they have in common need, and fold the
same of it. -/
theorem keepsAlike_contextAlong (horder : ∀ b, b ∈ order ↔ b ∈ keptBlocks c.blocks targets)
    (hconds : ∀ t ∈ condTrees, t ∈ condTrees') :
    (c.contextAlong targets condTrees' order).KeepsAlike
      (c.contextAlong targets condTrees order).relevant
      (c.contextAlong targets condTrees order).fold
      (· ∈ relevantRegions c.blocks order condTrees) where
  left r hr := decide_eq_true (relevantRegions_mono (fun b hb => (horder b).mp hb) hconds hr)
  right r hr := decide_eq_true (relevantRegions_mono (fun b hb => (horder b).mp hb) (fun _ h => h) hr)
  fold r hr := by
    have hshared := relevantRegions_mono (fun b hb => (horder b).mp hb) hconds hr
    have hown := relevantRegions_mono (fun b hb => (horder b).mp hb) (fun _ h => h) hr
    simp only [ContextInput.contextAlong, decide_eq_decide]
    split
    · rw [mem_foldEligibleRegions, mem_foldEligibleRegions]
      exact and_congr_left fun _ => iff_of_true hshared hown
    · rfl

theorem runChecks_congr {T : Type} {f g : T → Session → Except LowerError (CheckResult × Session)}
    {xs : List T} (h : ∀ x ∈ xs, f x = g x) (out : List CheckResult × Session) :
    runChecks f xs out = runChecks g xs out :=
  foldlM_congr (fun out x hx => by rw [h x hx]) out

/-- A policy is checked alike in a context that is built for more conditions, and in one of its
own that walks the same blocks. -/
theorem check_same (c : ContextInput maps) (hentry : 0 < c.blocks.length) {policies : List Checks}
    {p : Checks} (hconds : ∀ t ∈ p.condTrees, t ∈ policies.flatMap Checks.condTrees)
    {reachAll reachAll' : Bool}
    (htargets : contextTargets policies reachAll = contextTargets [p] reachAll')
    {F G : ForwardContext maps} {order order' : List Nat}
    (hF : contextFor c policies reachAll = .ok (F, order))
    (hG : contextFor c [p] reachAll' = .ok (G, order'))
    (hrec : Recorded c.blocks order p.condTrees) {w v : Walk maps} (hw : F.walk order = .ok w)
    (hv : G.walk order' = .ok v) (answers : Nat → Answer) :
    check F w answers p = check G v answers p := by
  unfold contextFor ContextInput.build at hF hG
  rw [htargets] at hF
  obtain ⟨order₁, htopo, hF⟩ := bind_eq_ok.mp hF
  obtain ⟨order₂, htopo', hG⟩ := bind_eq_ok.mp hG
  obtain rfl := Except.ok.inj (htopo.symm.trans htopo')
  cases hF
  cases hG
  have hwalk := walkOrder_of_topoOrder (kept_keptBlocks hentry _) htopo
  have hone : [p].flatMap Checks.condTrees = p.condTrees := List.flatMap_singleton ..
  rw [hone] at hv ⊢
  have hkeep := keepsAlike_contextAlong (c := c) hwalk.mem hconds
  obtain ⟨hblocks, hexits⟩ := conditions_same hrec hkeep hw hv answers
  have hblock := fun bc hbc => funext (hblocks bc (List.mem_append_left _ (List.mem_map_of_mem hbc)))
  have hexit := fun ec hec => funext (hexits ec (List.mem_append_right _ (List.mem_map_of_mem hec)))
  unfold check
  rw [runChecks_congr hblock]
  exact bind_congr fun out => runChecks_congr hexit out

/-- A policy that is checked in a context built for several policies has the results, and
asks the queries, of a context of its own that walks the same blocks. -/
theorem check_shared_eq (c : ContextInput maps) (hentry : 0 < c.blocks.length)
    {policies : List Checks} {p : Checks} (hp : p ∈ policies) {reachAll reachAll' : Bool}
    (htargets : contextTargets policies reachAll = contextTargets [p] reachAll')
    {F G : ForwardContext maps} {order order' : List Nat}
    (hF : contextFor c policies reachAll = .ok (F, order))
    (hG : contextFor c [p] reachAll' = .ok (G, order'))
    (hrec : Recorded c.blocks order p.condTrees) {w v : Walk maps} (hw : F.walk order = .ok w)
    (hv : G.walk order' = .ok v) (answers : Nat → Answer) :
    check F w answers p = check G v answers p :=
  check_same c hentry (fun _ ht => List.mem_flatMap.mpr ⟨p, hp, ht⟩) htargets hF hG hrec hw hv answers

end Shared

section Queue

def queueInput : ContextInput [] :=
  { blocks := trackedBlocks queueMark, initSt := makeInitState [], prunePaths := true
    hybridFold := true, simplifier := groundSimplifier, identity := .equal, fuel := 1 }

/-- One policy is about the return value, the other one about the queue that is written. -/
def returnsTwo : Checks := ⟨[], [returns 2]⟩

def queueZero : Checks := ⟨[onQueueZero], []⟩

theorem contextFor_queueInput (policies : List Checks) (h : returnsTwo ∈ policies) :
    contextFor queueInput policies false =
      .ok (queueInput.contextAlong none (policies.flatMap Checks.condTrees) [0], [0]) := by
  have htargets : contextTargets policies false = none :=
    if_pos (by
      simp only [Bool.or_eq_true, List.any_eq_true]
      exact .inr ⟨returnsTwo, h, rfl⟩)
  have htopo : topoOrder queueInput.blocks (keptBlocks queueInput.blocks none) = .ok [0] := by
    decide +kernel
  simp only [contextFor, ContextInput.build, htargets, htopo]
  rfl

theorem check_shared_eq_queue :
    ∃ F G w v, contextFor queueInput [queueZero, returnsTwo] false = .ok (F, [0]) ∧
      contextFor queueInput [returnsTwo] false = .ok (G, [0]) ∧
      F.relevant .rxIndex = true ∧ G.relevant .rxIndex = false ∧
      F.walk [0] = .ok w ∧ G.walk [0] = .ok v ∧
      check F w (fun _ => .unsat) returnsTwo = check G v (fun _ => .unsat) returnsTwo := by
  have hF := contextFor_queueInput [queueZero, returnsTwo] (by simp)
  have hG := contextFor_queueInput [returnsTwo] (by simp)
  obtain ⟨w, hw⟩ := exists_ok (x := (queueInput.contextAlong none
    ([queueZero, returnsTwo].flatMap Checks.condTrees) [0]).walk [0]) (by decide +kernel)
  obtain ⟨v, hv⟩ := exists_ok (x := (queueInput.contextAlong none
    ([returnsTwo].flatMap Checks.condTrees) [0]).walk [0]) (by decide +kernel)
  have hentry : 0 < queueInput.blocks.length := by decide +kernel
  have htargets : contextTargets [queueZero, returnsTwo] false = contextTargets [returnsTwo] false := by
    decide +kernel
  have hmem : returnsTwo ∈ [queueZero, returnsTwo] := by simp
  have hrec : Recorded queueInput.blocks [0] returnsTwo.condTrees := recorded_queueMark
  exact ⟨_, _, w, v, hF, hG, by decide +kernel, by decide +kernel, hw, hv,
    check_shared_eq queueInput hentry hmem htargets hF hG hrec hw hv _⟩

end Queue

end Hornet
