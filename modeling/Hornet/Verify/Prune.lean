import Hornet.Bpf.Graph
import Hornet.Lib.Dfs
import Hornet.Track.Effects

/-!
Traversals of the control-flow graph and the guards of branches.
-/

namespace Hornet

open Smt

inductive ForwardError where
  | cycle
  | notCovered (covered live : Nat)
  deriving DecidableEq, Repr

def successors (b : Block) : List Nat :=
  b.succT.toList ++ (if b.succF = b.succT then [] else b.succF.toList)

section Graph

variable (blocks : List Block)

def succsOf (b : Nat) : List Nat := ((blocks[b]?).map successors).getD []

def predsOf (b : Nat) : List Nat := ((blocks[b]?).map (·.preds)).getD []

/-- The blocks that can be reached from block 0. -/
def forwardReachable : List Nat :=
  Lib.worklist (fun b => decide (b < blocks.length)) (fun _ b => succsOf blocks b)
    (Lib.worklistFuel (List.range blocks.length) 2) [] [0]

/-- The live blocks in topological order, from block 0 on. -/
def topoOrder (live : List Nat) : Except ForwardError (List Nat) :=
  match Lib.dfsOrder (fun b => (succsOf blocks b).filter (· ∈ live))
      (Lib.dfsFuel (0 :: live) 2) (fun _ => .white) [] [(0, false)] with
  | none => throw .cycle
  | some order =>
      if order.length ≠ live.length then throw (.notCovered order.length live.length)
      else pure order

/-- For each block of the order, the blocks on some path to it. -/
def ancestors (order : List Nat) : Nat → Option (List Nat) :=
  order.foldl (fun anc b => Function.update anc b (some ((predsOf blocks b).flatMap fun p =>
    match anc p with
    | some s => p :: s
    | none => []))) (fun _ => none)

/-- The live blocks from which `target` can be reached. -/
def sliceTo (live : List Nat) (target : Nat) : List Nat :=
  Lib.worklist (fun _ => true)
    (fun seen b => (predsOf blocks b).filter fun p => p ∈ live && p ∉ seen)
    (Lib.worklistFuel (target :: live) ((blocks.map (·.preds.length)).sum)) [] [target]

def blockSlice (live : List Nat) : Option (List Nat) → List Nat
  | none => live
  | some targets =>
      (0 :: (targets.filter (· ∈ live)).flatMap (sliceTo blocks live)).dedup

end Graph

/-- The simplifier of the solver: it keeps the meaning of a condition. -/
structure Simplifier where
  simplify : ZTerm .bool → ZTerm .bool
  sound : ∀ (m : ZModel) (t : ZTerm .bool), (simplify t).eval m = t.eval m

/-- A simplifier that decides the conditions without variables. -/
def groundSimplifier : Simplifier where
  simplify t := if t.isGround then .boolVal (t.eval fun s _ => s.zero) else t
  sound m t := by
    split
    · rename_i h
      exact Term.eval_ground h _ _
    · rfl

/-- The simplifier that leaves every condition as it is. -/
def idleSimplifier : Simplifier where
  simplify := id
  sound _ _ := rfl

/-- A condition whose truth the simplifier finds becomes a truth value. -/
def lit (S : Simplifier) : Guard → Guard
  | .tt => .tt
  | .ff => .ff
  | .term t =>
      match S.simplify t with
      | .boolVal true => .tt
      | .boolVal false => .ff
      | r => .term r

/-- The simplifier keeps the truth of a condition. -/
theorem eval_lit (m : ZModel) (S : Simplifier) (g : Guard) : (lit S g).eval m = g.eval m := by
  unfold lit
  split
  · rfl
  · rfl
  · rename_i t
    have hsound := S.sound m t
    split <;> simp_all [Guard.eval]

section Guards

variable {maps : List MapInfo} (R : Option (Reads maps)) (b : Block) (st : Z3State maps)

/-- The guards of the taken and the fall-through edge, and whether the condition
is unknown. -/
def branchGuards (S : Simplifier) : Except LowerError (Guard × Guard × Bool) :=
  match b.cond with
  | none =>
      let c := Guard.term (.var (.branchTaken b.num) .bool)
      pure (c, c.not, true)
  | some cond => do
      let c ← cond.toZ3 R (some b.num) st
      pure (lit S c, (lit S c).not, false)

/-- The same without simplification: a truth value becomes a term. -/
def branchGuardsUnpruned : Except LowerError (Guard × Guard × Bool) :=
  match b.cond with
  | none =>
      let c : ZTerm .bool := .var (.branchTaken b.num) .bool
      pure (.term c, .term (.not c), true)
  | some cond => do
      let c ← cond.toZ3 R (some b.num) st
      let c : ZTerm .bool := match c with
        | .tt => .boolVal true
        | .ff => .boolVal false
        | .term t => t
      pure (.term c, .term (.not c), false)

end Guards

end Hornet
