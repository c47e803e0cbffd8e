import Hornet.Lib.Saturate
import Hornet.Verify.Spec

/-!
The regions of the state that a context keeps track of: those that the conditions read,
those that the branches and the return values read, and whatever the writes to these
regions read. The rest is left out of the walk.
-/

namespace Hornet

/-! ## The regions that a value reads

The indices of the interfaces are parts of the state too, but nothing writes them. -/

mutual

def exprRegions : Expr → Finset StateRegion
  | .pktVal _ _ _ varOff _ => insert .pkt (optRegions varOff)
  | .mapVal _ _ mapId mapKey _ _ varOff _ =>
      insert (.map mapId) (optRegions mapKey ∪ optRegions varOff)
  | .bssVal _ _ key _ varOff _ => insert (.bss key) (optRegions varOff)
  | .rodataVal _ _ varOff _ => optRegions varOff
  | .lookupHit mapId mapKey _ => insert (.map mapId) (optRegions mapKey)
  | .pktLen .. => {.pktLen}
  | .rxQueueIndex => {.rxIndex}
  | .funcRetval ⟨_, _, _, _, mapId, mapKey, _, _, redirects⟩ =>
      if redirects && mapId.isSome then insert (.map mapId) (optRegions mapKey) else ∅
  | .joinValue _ _ values _ => listRegions values
  | .unary _ dst _ _ _ _ => optRegions dst
  | .binary _ dst src _ _ _ => optRegions dst ∪ optRegions src
  | .byteSeq chunks _ _ => listRegions chunks
  | .scalar .. | .ingressIfindex | .egressIfindex | .num .. | .ptr _ => ∅
termination_by structural e => e

def optRegions : Option Expr → Finset StateRegion
  | none => ∅
  | some e => exprRegions e
termination_by structural e => e

def listRegions : List (Option Expr) → Finset StateRegion
  | [] => ∅
  | e :: es => optRegions e ∪ listRegions es
termination_by structural es => es

end

def branchCondRegions : Condition → Finset StateRegion
  | .containMapValue mapId mapKey _ _ =>
      if mapId.isSome then insert (.map mapId) (optRegions mapKey) else ∅
  | .adjustHeadCheck .. => ∅
  | .tailCallTaken _ index _ _ => optRegions index
  | .cmp _ dst src _ => optRegions dst ∪ optRegions src

def CtxTarget.regions : CtxTarget → Finset StateRegion
  | .rxIndex => {.rxIndex}
  | .ingress | .egress => ∅

def atomRegions : Atom → Finset StateRegion
  | .pkt .. => {.pkt}
  | .map mapId .. => {.map (some mapId)}
  | .bss sym .. => {.bss (some sym)}
  | .len .. => {.pktLen}
  | .scalar target _ => target.regions
  | .helperScalar retval _ _ => exprRegions retval
  | .helperNull mapId mapKey _ _ =>
      if mapId.isSome then insert (.map mapId) (optRegions mapKey) else ∅
  | .ret .. => ∅
  | .read parts _ _ => listRegions (parts.map fun p => some p.1)

mutual

def condRegions : CondNode → Finset StateRegion
  | .leaf atom => atomRegions atom
  | .not child => condRegions child
  | .and children | .or children => condsRegions children

def condsRegions : List CondNode → Finset StateRegion
  | [] => ∅
  | c :: cs => condRegions c ∪ condsRegions cs

end

/-- The regions that a write reads. -/
def Action.operandRegions (a : Action) : Finset StateRegion :=
  optRegions a.value ∪ optRegions a.mapKey ∪ optRegions a.varOff

/-! ## The regions that a context keeps -/

section Relevant

variable (blocks : List Block) (slice : List Nat)

/-- The blocks of a slice. -/
def sliceBlocks : List Block := slice.filterMap (blocks[·]?)

def sliceActions : List Action := (sliceBlocks blocks slice).flatMap fun b => b.actions.map (·.action)

def unionAll (sets : List (Finset StateRegion)) : Finset StateRegion := sets.foldr (· ∪ ·) ∅

/-- What the conditions, the return values and the branches read. -/
def askedRegions (condTrees : List CondNode) : Finset StateRegion :=
  condsRegions condTrees ∪
    unionAll (((sliceBlocks blocks slice).filter (·.kind = .exit)).map fun b =>
      optRegions ((b.regs 0).map (·.val))) ∪
    unionAll ((sliceBlocks blocks slice).map fun b => (b.cond.map branchCondRegions).getD ∅)

def relevantRegions (condTrees : List CondNode) : Finset StateRegion :=
  Lib.saturate Action.writeRegion Action.operandRegions (sliceActions blocks slice)
    ((sliceActions blocks slice).length + 1) (askedRegions blocks slice condTrees)

/-- A memory region: the packet, a map or a symbol. -/
def StateRegion.isMemory : StateRegion → Bool
  | .pkt | .map _ | .bss _ => true
  | .pktLen | .rxIndex => false

/-- Whether a write or a recorded read of the region has a variable offset. -/
def regionHasVarOff (r : StateRegion) : Bool :=
  (sliceBlocks blocks slice).any fun b =>
    b.actions.any (fun e => e.action.writeRegion = some r && e.action.varOff.isSome) ||
      b.sources.any fun
        | .pktVal _ _ _ varOff _ => r = .pkt && varOff.isSome
        | .mapVal _ _ mapId _ _ _ varOff _ => r = .map mapId && varOff.isSome
        | .bssVal _ _ key _ varOff _ => r = .bss key && varOff.isSome
        | _ => false

/-- The regions whose reads are resolved from the list of writes. -/
def foldEligibleRegions (relevant : Finset StateRegion) : Finset StateRegion :=
  relevant.filter fun r => r.isMemory && !regionHasVarOff blocks slice r

end Relevant

section Members

variable {blocks : List Block} {slice : List Nat} {r : StateRegion}

theorem mem_unionAll {sets : List (Finset StateRegion)} :
    r ∈ unionAll sets ↔ ∃ s ∈ sets, r ∈ s := by
  unfold unionAll
  induction sets with
  | nil => simp
  | cons s sets ih => simp [ih]

theorem mem_sliceBlocks {b : Block} :
    b ∈ sliceBlocks blocks slice ↔ ∃ i ∈ slice, blocks[i]? = some b := List.mem_filterMap

theorem mem_sliceActions {a : Action} :
    a ∈ sliceActions blocks slice ↔
      ∃ b ∈ sliceBlocks blocks slice, ∃ e ∈ b.actions, e.action = a := by
  simp only [sliceActions, List.mem_flatMap, List.mem_map]

/-- A region that some condition, return value or branch reads, or a write to a needed
region. -/
inductive Needed (blocks : List Block) (slice : List Nat) (condTrees : List CondNode) :
    StateRegion → Prop
  | condition {c : CondNode} {r : StateRegion} (hc : c ∈ condTrees) (hr : r ∈ condRegions c) :
      Needed blocks slice condTrees r
  | returned {i : Nat} {b : Block} {o : Obj} {r : StateRegion} (hi : i ∈ slice)
      (hb : blocks[i]? = some b) (hexit : b.kind = .exit) (ho : b.regs 0 = some o)
      (hr : r ∈ exprRegions o.val) : Needed blocks slice condTrees r
  | branch {i : Nat} {b : Block} {c : Condition} {r : StateRegion} (hi : i ∈ slice)
      (hb : blocks[i]? = some b) (hc : b.cond = some c) (hr : r ∈ branchCondRegions c) :
      Needed blocks slice condTrees r
  | operand {i : Nat} {b : Block} {e : Event} {s r : StateRegion} (hi : i ∈ slice)
      (hb : blocks[i]? = some b) (he : e ∈ b.actions) (hs : e.action.writeRegion = some s)
      (hneeded : Needed blocks slice condTrees s) (hr : r ∈ e.action.operandRegions) :
      Needed blocks slice condTrees r

theorem mem_condsRegions {cs : List CondNode} :
    r ∈ condsRegions cs ↔ ∃ c ∈ cs, r ∈ condRegions c := by
  induction cs with
  | nil => simp [condsRegions]
  | cons c cs ih => simp [condsRegions, ih]

theorem mem_askedRegions {condTrees : List CondNode} :
    r ∈ askedRegions blocks slice condTrees ↔
      (∃ c ∈ condTrees, r ∈ condRegions c) ∨
      (∃ b ∈ sliceBlocks blocks slice, b.kind = .exit ∧ ∃ o, b.regs 0 = some o ∧ r ∈ exprRegions o.val) ∨
      ∃ b ∈ sliceBlocks blocks slice, ∃ c, b.cond = some c ∧ r ∈ branchCondRegions c := by
  have hreturned : ∀ b : Block, r ∈ optRegions ((b.regs 0).map (·.val)) ↔
      ∃ o, b.regs 0 = some o ∧ r ∈ exprRegions o.val := by
    intro b
    cases b.regs 0 <;> simp [optRegions]
  have hbranch : ∀ b : Block, r ∈ (b.cond.map branchCondRegions).getD ∅ ↔
      ∃ c, b.cond = some c ∧ r ∈ branchCondRegions c := by
    intro b
    cases b.cond <;> simp
  simp only [askedRegions, Finset.mem_union, mem_condsRegions, mem_unionAll, List.mem_map,
    List.mem_filter, decide_eq_true_eq]
  constructor
  · rintro ((h | ⟨_, ⟨b, ⟨hb, hexit⟩, rfl⟩, hr⟩) | ⟨_, ⟨b, hb, rfl⟩, hr⟩)
    · exact .inl h
    · exact .inr (.inl ⟨b, hb, hexit, (hreturned b).mp hr⟩)
    · exact .inr (.inr ⟨b, hb, (hbranch b).mp hr⟩)
  · rintro (h | ⟨b, hb, hexit, hr⟩ | ⟨b, hb, hr⟩)
    · exact .inl (.inl h)
    · exact .inl (.inr ⟨_, ⟨b, ⟨hb, hexit⟩, rfl⟩, (hreturned b).mpr hr⟩)
    · exact .inr ⟨_, ⟨b, hb, rfl⟩, (hbranch b).mpr hr⟩

/-- The loop over the writes has found exactly the regions that are needed. -/
theorem mem_relevantRegions {condTrees : List CondNode} :
    r ∈ relevantRegions blocks slice condTrees ↔ Needed blocks slice condTrees r := by
  unfold relevantRegions
  rw [Lib.mem_saturate_iff (Nat.lt_succ_self _)]
  constructor
  · intro h
    induction h with
    | start h =>
        obtain ⟨c, hc, hr⟩ | ⟨b, hb, hexit, o, ho, hr⟩ | ⟨b, hb, c, hc, hr⟩ := mem_askedRegions.mp h
        · exact .condition hc hr
        · obtain ⟨i, hi, hb⟩ := mem_sliceBlocks.mp hb
          exact .returned hi hb hexit ho hr
        · obtain ⟨i, hi, hb⟩ := mem_sliceBlocks.mp hb
          exact .branch hi hb hc hr
    | rule hx htrigger _ hb ih =>
        obtain ⟨b, hblock, e, he, rfl⟩ := mem_sliceActions.mp hx
        obtain ⟨i, hi, hblock⟩ := mem_sliceBlocks.mp hblock
        exact .operand hi hblock he htrigger ih hb
  · intro h
    induction h with
    | condition hc hr => exact .start (mem_askedRegions.mpr (.inl ⟨_, hc, hr⟩))
    | returned hi hb hexit ho hr =>
        exact .start (mem_askedRegions.mpr
          (.inr (.inl ⟨_, mem_sliceBlocks.mpr ⟨_, hi, hb⟩, hexit, _, ho, hr⟩)))
    | branch hi hb hc hr =>
        exact .start (mem_askedRegions.mpr
          (.inr (.inr ⟨_, mem_sliceBlocks.mpr ⟨_, hi, hb⟩, _, hc, hr⟩)))
    | operand hi hb he hs _ hr ih =>
        exact .rule (mem_sliceActions.mpr ⟨_, mem_sliceBlocks.mpr ⟨_, hi, hb⟩, _, he, rfl⟩) hs ih hr

/-- The loop over the writes ends with the least regions that hold what is asked for, and with
a region all that the writes to it read. -/
theorem relevantRegions_least (blocks : List Block) (slice : List Nat) (condTrees : List CondNode) :
    askedRegions blocks slice condTrees ⊆ relevantRegions blocks slice condTrees ∧
    (∀ a ∈ sliceActions blocks slice, ∀ s ∈ relevantRegions blocks slice condTrees,
      a.writeRegion = some s → a.operandRegions ⊆ relevantRegions blocks slice condTrees) ∧
    ∀ kept : Finset StateRegion, askedRegions blocks slice condTrees ⊆ kept →
      (∀ a ∈ sliceActions blocks slice, ∀ s ∈ kept, a.writeRegion = some s →
        a.operandRegions ⊆ kept) →
      relevantRegions blocks slice condTrees ⊆ kept := by
  have hmem : ∀ r, r ∈ relevantRegions blocks slice condTrees ↔ Lib.Derived Action.writeRegion
      Action.operandRegions (sliceActions blocks slice) (askedRegions blocks slice condTrees) r :=
    fun r => Lib.mem_saturate_iff (Nat.lt_succ_self _)
  refine ⟨fun r hr => (hmem r).mpr (.start hr), ?_, ?_⟩
  · intro a ha s hs hwrite r hr
    exact (hmem r).mpr (.rule ha hwrite ((hmem s).mp hs) hr)
  · intro kept hasked hclosed r hr
    induction (hmem r).mp hr with
    | start h => exact hasked h
    | rule hx htrigger hs hb ih => exact hclosed _ hx _ (ih ((hmem _).mpr hs)) htrigger hb

end Members

end Hornet
