import Hornet.Track.Expr
import Hornet.Bpf.Instr

/-!
What the tracker records about a block: the actions it performs, the condition
of its branch, and what each outgoing edge says about a pointer.
-/

namespace Hornet

/-- A callee that was linked in for a tail call, or the main program, whose
slot and map are both empty. -/
structure ProgRegion where
  name : String
  start : Nat
  «end» : Nat
  slot : Option Nat
  mapId : Option Nat
  deriving DecidableEq, Repr

namespace ProgRegion

def isMain (r : ProgRegion) : Bool := r.slot.isNone && r.mapId.isNone

def contains (r : ProgRegion) (idx : Nat) : Bool := r.start ≤ idx && idx ≤ r.end

end ProgRegion

def regionOf (progs : List ProgRegion) (idx : Nat) : Option ProgRegion :=
  progs.find? (·.contains idx)

inductive Condition where
  | cmp (code : JmpOp) (dst src : Option Expr) (jmp32 : Bool)
  | adjustHeadCheck (result : Bool) (idx : Int)
  | containMapValue (mapId : Option Nat) (mapKey : Option Expr) (mapKeyId : Option Int)
      (result : Bool)
  | tailCallTaken (mapId : Option Nat) (index : Option Expr) (slot : Option Nat) (idx : Int)

inductive Action where
  | pktWrite (id : Int) (off : Int) (varOff : Option Expr) (size : Nat) (value : Option Expr)
  | mapWrite (mapId : Option Nat) (mapKey : Option Expr) (off : Int) (size : Nat)
      (value : Option Expr) (varOff : Option Expr)
  | mapAtomicAdd (mapId : Option Nat) (mapKey : Option Expr) (off : Int) (size : Nat)
      (value : Option Expr) (varOff : Option Expr) (old : Option Expr)
  | mapLookup (mapId : Option Nat) (mapKey : Option Expr) (mapKeyId : Option Int)
  | mapUpdate (mapId : Option Nat) (mapKey : Option Expr) (value : Option Expr)
      (flags : Option Int) (size : Nat)
  | mapDelete (mapId : Option Nat) (mapKey : Option Expr)
  | bssWrite (bssKey : Option String) (off : Int) (size : Nat) (value : Option Expr)
      (varOff : Option Expr)
  | bssAtomicAdd (bssKey : Option String) (off : Int) (size : Nat) (value : Option Expr)
      (varOff : Option Expr) (old : Option Expr)
  | adjustHead (delta : Int)
  | adjustTail (delta : Int)
  | adjustMeta (delta : Int)
  | xdpBuffLen
  | ctxWrite (value : Option Expr)
  | tailCall (mapId : Option Nat) (index : Option Expr)
  | perfEventOutput

/-- An action with the block and the instruction that emitted it. -/
structure Event where
  block : Nat
  idx : Int
  action : Action

structure PtrFacts where
  baseId : Option Int
  checkedNull : Option Bool
  deriving DecidableEq, Repr

/-- What a null test states on one of its edges. Unlike the facts of a block it is
always decided. -/
structure NullTest where
  baseId : Option Int
  null : Bool
  deriving DecidableEq, Repr

structure PktFacts where
  id : Option Int
  baseId : Option Int
  minLen : Option Int := none
  maxLen : Option Int := none
  deriving DecidableEq, Repr

structure AdjustFacts where
  idx : Int
  baseId : Option Int
  deriving DecidableEq, Repr

/-- What one outgoing edge of a block states. -/
inductive EdgeFact where
  | ptr (f : NullTest)
  | pkt (f : PktFacts)
  | adjust (f : AdjustFacts)
  deriving DecidableEq, Repr

/-- Where a value object was created. Two slots hold the same Python object
exactly when these agree: an instruction and a join each run once. -/
inductive Origin where
  | init (reg : Nat)
  | instr (idx : Nat) (slot : Nat)
  | view (idx : Nat) (slot : Int)
  | entry (block : Nat) (slot : Int) (depth k : Nat)
  | merge (block : Nat) (slot : Int)
  deriving DecidableEq, Repr

structure Obj where
  org : Origin
  val : Expr

end Hornet
