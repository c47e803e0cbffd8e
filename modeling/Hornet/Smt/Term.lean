import Mathlib.Data.BitVec

/-!
Terms over fixed-width bit-vectors, Booleans and arrays, with their meaning
under an assignment of the free variables. The sort is an index of the term
type, so an ill-sorted term cannot be written down. A term whose width is only
known when it is built is a `Bv`, the pair of the width and the term.
-/

namespace Hornet.Smt

inductive Srt where
  | bv (width : Nat)
  | bool
  | array (domain : Nat) (range : Srt)
  deriving DecidableEq, Repr

@[reducible] def Srt.Value : Srt → Type
  | .bv w => BitVec w
  | .bool => Bool
  | .array d r => BitVec d → r.Value

def Srt.zero : (s : Srt) → s.Value
  | .bv w => 0#w
  | .bool => false
  | .array _ r => fun _ => r.zero

inductive BvOp where
  | add | sub | mul | udiv | urem | sdiv | srem
  | and | or | xor | shl | lshr | ashr
  deriving DecidableEq, Repr

def BvOp.eval {w : Nat} : BvOp → BitVec w → BitVec w → BitVec w
  | .add, a, b => a + b
  | .sub, a, b => a - b
  | .mul, a, b => a * b
  | .udiv, a, b => a.smtUDiv b
  | .urem, a, b => a % b
  | .sdiv, a, b => a.smtSDiv b
  | .srem, a, b => a.srem b
  | .and, a, b => a &&& b
  | .or, a, b => a ||| b
  | .xor, a, b => a ^^^ b
  | .shl, a, b => a <<< b
  | .lshr, a, b => a >>> b
  | .ashr, a, b => a.sshiftRight' b

inductive CmpOp where
  | eq | ult | ule | slt | sle
  deriving DecidableEq, Repr

def CmpOp.eval {w : Nat} : CmpOp → BitVec w → BitVec w → Bool
  | .eq, a, b => a == b
  | .ult, a, b => a.ult b
  | .ule, a, b => a.ule b
  | .slt, a, b => a.slt b
  | .sle, a, b => a.sle b

/-- `ν` is the type of variable names. One name at two sorts is two variables. -/
inductive Term (ν : Type) : Srt → Type where
  | var (name : ν) (s : Srt) : Term ν s
  | const {w : Nat} (v : BitVec w) : Term ν (.bv w)
  | boolVal (b : Bool) : Term ν .bool
  | neg {w : Nat} (a : Term ν (.bv w)) : Term ν (.bv w)
  | compl {w : Nat} (a : Term ν (.bv w)) : Term ν (.bv w)
  | bin {w : Nat} (op : BvOp) (a b : Term ν (.bv w)) : Term ν (.bv w)
  | extract {w : Nat} (lo len : Nat) (a : Term ν (.bv w)) : Term ν (.bv len)
  | concat {w v : Nat} (n : Nat) (h : n = w + v) (a : Term ν (.bv w)) (b : Term ν (.bv v)) :
      Term ν (.bv n)
  | signExt {w : Nat} (n : Nat) (a : Term ν (.bv w)) : Term ν (.bv n)
  | cmp {w : Nat} (op : CmpOp) (a b : Term ν (.bv w)) : Term ν .bool
  | iff (a b : Term ν .bool) : Term ν .bool
  | not (a : Term ν .bool) : Term ν .bool
  | and (a b : Term ν .bool) : Term ν .bool
  | or (a b : Term ν .bool) : Term ν .bool
  | ite {s : Srt} (c : Term ν .bool) (a b : Term ν s) : Term ν s
  | select {d : Nat} {r : Srt} (a : Term ν (.array d r)) (i : Term ν (.bv d)) : Term ν r
  | store {d : Nat} {r : Srt} (a : Term ν (.array d r)) (i : Term ν (.bv d)) (v : Term ν r) :
      Term ν (.array d r)
  | constArray (d : Nat) {r : Srt} (v : Term ν r) : Term ν (.array d r)
  deriving DecidableEq

/-- An assignment of a value to every variable of every sort. -/
abbrev Model (ν : Type) := (s : Srt) → ν → s.Value

variable {ν : Type}

/-- The assignment that is zero except where `vals` gives a number. -/
def Model.ofNats (vals : ν → Option Nat) : Model ν
  | .bv w, n => BitVec.ofNat w ((vals n).getD 0)
  | s, _ => s.zero

def Term.eval (m : Model ν) : {s : Srt} → Term ν s → s.Value
  | _, .var n s => m s n
  | _, .const v => v
  | _, .boolVal b => b
  | _, .neg a => -a.eval m
  | _, .compl a => ~~~a.eval m
  | _, .bin op a b => op.eval (a.eval m) (b.eval m)
  | _, .extract lo len a => (a.eval m).extractLsb' lo len
  | _, .concat _ h a b => (a.eval m ++ b.eval m).cast h.symm
  | _, .signExt n a => (a.eval m).signExtend n
  | _, .cmp op a b => op.eval (a.eval m) (b.eval m)
  | _, .iff a b => a.eval m == b.eval m
  | _, .not a => !a.eval m
  | _, .and a b => a.eval m && b.eval m
  | _, .or a b => a.eval m || b.eval m
  | _, .ite c a b => if c.eval m then a.eval m else b.eval m
  | _, .select a i => a.eval m (i.eval m)
  | _, .store a i v => fun j => if j = i.eval m then v.eval m else a.eval m j
  | _, .constArray _ v => fun _ => v.eval m

section Eval

variable (m : Model ν)

@[simp] theorem Term.eval_var (n : ν) (s : Srt) : (Term.var n s).eval m = m s n := rfl

@[simp] theorem Term.eval_const {w : Nat} (v : BitVec w) :
    (Term.const v : Term ν (.bv w)).eval m = v := rfl

@[simp] theorem Term.eval_boolVal (b : Bool) :
    (Term.boolVal b : Term ν .bool).eval m = b := rfl

@[simp] theorem Term.eval_neg {w : Nat} (a : Term ν (.bv w)) :
    (Term.neg a).eval m = -a.eval m := rfl

@[simp] theorem Term.eval_compl {w : Nat} (a : Term ν (.bv w)) :
    (Term.compl a).eval m = ~~~a.eval m := rfl

@[simp] theorem Term.eval_bin {w : Nat} (op : BvOp) (a b : Term ν (.bv w)) :
    (Term.bin op a b).eval m = op.eval (a.eval m) (b.eval m) := rfl

@[simp] theorem Term.eval_extract {w : Nat} (lo len : Nat) (a : Term ν (.bv w)) :
    (Term.extract lo len a).eval m = (a.eval m).extractLsb' lo len := rfl

@[simp] theorem Term.eval_concat {w v n : Nat} (h : n = w + v) (a : Term ν (.bv w))
    (b : Term ν (.bv v)) :
    (Term.concat n h a b).eval m = (a.eval m ++ b.eval m).cast h.symm := rfl

@[simp] theorem Term.eval_signExt {w : Nat} (n : Nat) (a : Term ν (.bv w)) :
    (Term.signExt n a).eval m = (a.eval m).signExtend n := rfl

@[simp] theorem Term.eval_cmp {w : Nat} (op : CmpOp) (a b : Term ν (.bv w)) :
    (Term.cmp op a b).eval m = op.eval (a.eval m) (b.eval m) := rfl

@[simp] theorem Term.eval_iff (a b : Term ν .bool) :
    (Term.iff a b).eval m = (a.eval m == b.eval m) := rfl

@[simp] theorem Term.eval_not (a : Term ν .bool) : (Term.not a).eval m = !a.eval m := rfl

@[simp] theorem Term.eval_and (a b : Term ν .bool) :
    (Term.and a b).eval m = (a.eval m && b.eval m) := rfl

@[simp] theorem Term.eval_or (a b : Term ν .bool) :
    (Term.or a b).eval m = (a.eval m || b.eval m) := rfl

@[simp] theorem Term.eval_ite {s : Srt} (c : Term ν .bool) (a b : Term ν s) :
    (Term.ite c a b).eval m = if c.eval m then a.eval m else b.eval m := rfl

@[simp] theorem Term.eval_select {d : Nat} {r : Srt} (a : Term ν (.array d r))
    (i : Term ν (.bv d)) : (Term.select a i).eval m = a.eval m (i.eval m) := rfl

@[simp] theorem Term.eval_store {d : Nat} {r : Srt} (a : Term ν (.array d r))
    (i : Term ν (.bv d)) (v : Term ν r) (j : BitVec d) :
    (Term.store a i v).eval m j = if j = i.eval m then v.eval m else a.eval m j := rfl

@[simp] theorem Term.eval_constArray {d : Nat} {r : Srt} (v : Term ν r) (j : BitVec d) :
    (Term.constArray d v).eval m j = v.eval m := rfl

/-- A term without variables. -/
def Term.isGround : {s : Srt} → Term ν s → Bool
  | _, .var .. => false
  | _, .const _ | _, .boolVal _ => true
  | _, .neg a | _, .compl a | _, .extract _ _ a | _, .signExt _ a | _, .not a
  | _, .constArray _ a => a.isGround
  | _, .bin _ a b | _, .concat _ _ a b | _, .cmp _ a b | _, .iff a b | _, .and a b | _, .or a b
  | _, .select a b => a.isGround && b.isGround
  | _, .ite a b c | _, .store a b c => a.isGround && b.isGround && c.isGround

theorem Term.eval_ground {s : Srt} {t : Term ν s} (h : t.isGround = true) (m m' : Model ν) :
    t.eval m = t.eval m' := by
  induction t <;> simp_all [isGround, Term.eval]

end Eval

/-- A bit-vector term together with its width. -/
structure Bv (ν : Type) where
  size : Nat
  term : Term ν (.bv size)

namespace Bv

def ofInt (size : Nat) (v : Int) : Bv ν := ⟨size, .const (BitVec.ofInt size v)⟩

/-- The value of the term as a natural number: its zero extension to any width. -/
def toNat (m : Model ν) (b : Bv ν) : Nat := (b.term.eval m).toNat

theorem toNat_lt (m : Model ν) (b : Bv ν) : b.toNat m < 2 ^ b.size :=
  (b.term.eval m).isLt

@[simp] theorem toNat_mk (m : Model ν) {w : Nat} (t : Term ν (.bv w)) :
    (Bv.mk w t).toNat m = (t.eval m).toNat := rfl

/-- The literal a term is, if it is one. -/
def value? (b : Bv ν) : Option Nat :=
  match b.term with
  | .const v => some v.toNat
  | _ => none

theorem toNat_of_value? {b : Bv ν} {v : Nat} (h : b.value? = some v) (m : Model ν) :
    b.toNat m = v := by
  obtain ⟨w, t⟩ := b
  cases t <;> simp_all [value?, Bv.toNat]

end Bv

end Hornet.Smt
