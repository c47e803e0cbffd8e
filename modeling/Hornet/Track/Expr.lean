import Hornet.Bpf.Constants

/-!
The values the tracker computes with. A register or a stack slot holds such a
value or nothing. `Expr.same` is the equality the source's classes define for
each other, which is coarser than equality of the terms: it ignores the size of
a constant, the operands of a helper result and the arms of a join.
-/

namespace Hornet

/-- Which successor of its predecessor a CFG edge is. -/
inductive EdgeKind where
  | fall | taken
  deriving DecidableEq, Repr

/-- A CFG edge as the joins name it: the predecessor and the kind. -/
abbrev Edge := Nat × EdgeKind

/-- A pointer. `checkedNull` is what is known about its nullity, and `nullPhi`
a value that is zero exactly when the pointer is null. -/
structure PTR (ε : Type) where
  ptrType : PtrType
  off : Int := 0
  varOff : Option ε := none
  id : Int := -1
  baseId : Option Int := some (-1)
  mapId : Option Nat := none
  mapKey : Option ε := none
  mapKeyId : Option Int := none
  bssIdx : Option String := none
  rodataOffset : Option Int := none
  rodataData : List UInt8 := []
  checkedNull : Option Bool := some false
  nullPhi : Option ε := none

/-- The result of a helper call. For the redirect helpers it also carries the
operands that decide the result. -/
structure FuncRetval (ε : Type) where
  size : Nat := 8
  idx : Int
  func : Nat
  block : Nat
  mapId : Option Nat := none
  mapKey : Option ε := none
  mapKeyId : Option Int := none
  fallback : Int := 0
  redirects : Bool := false

/-- The operation size of an ALU node in bytes. The tracker builds no other. -/
inductive AluSize where
  | b4 | b8
  deriving DecidableEq, Repr

def AluSize.bytes : AluSize → Nat
  | .b4 => 4
  | .b8 => 8

inductive Expr where
  | scalar (size : Nat) (idx : Int)
  | joinValue (blockIdx : Nat) (regNum : Int) (values : List (Option Expr))
      (edges : List (List Edge))
  | ingressIfindex
  | rxQueueIndex
  | egressIfindex
  | pktLen (size : Nat) (baseId : Option Int)
  | funcRetval (r : FuncRetval Expr)
  | pktVal (block : Nat) (idx : Int) (off : Int) (varOff : Option Expr) (size : Nat)
  | mapVal (block : Nat) (idx : Int) (mapId : Option Nat) (mapKey : Option Expr)
      (mapKeyId : Option Int) (off : Int) (varOff : Option Expr) (size : Nat)
  | bssVal (block : Nat) (idx : Int) (bssKey : Option String) (off : Int)
      (varOff : Option Expr) (size : Nat)
  | rodataVal (data : List UInt8) (off : Int) (varOff : Option Expr) (size : Nat)
  | lookupHit (mapId : Option Nat) (mapKey : Option Expr) (mapKeyId : Option Int)
  | num (num : Int) (size : Nat) (idx : Int)
  | byteSeq (chunks : List (Option Expr)) (size : Nat) (off : Nat)
  | unary (op : AluOp) (dst : Option Expr) (opcodeS : OpSrc) (imm : Int) (size : Nat)
      (alu64 : Bool)
  | binary (op : AluOp) (dst src : Option Expr) (offset : Int) (size : AluSize) (idx : Int)
  | ptr (p : PTR Expr)

namespace Expr

/-- The declared size in bytes. -/
def size : Expr → Nat
  | .scalar size _ => size
  | .joinValue .. => 8
  | .ingressIfindex | .rxQueueIndex | .egressIfindex => 4
  | .pktLen size _ => size
  | .funcRetval r => r.size
  | .pktVal _ _ _ _ size => size
  | .mapVal _ _ _ _ _ _ _ size => size
  | .bssVal _ _ _ _ _ size => size
  | .rodataVal _ _ _ size => size
  | .lookupHit .. => 1
  | .num _ size _ => size
  | .byteSeq _ size _ => size
  | .unary _ _ _ _ size _ => size
  | .binary _ _ _ _ size _ => size.bytes
  | .ptr _ => 4

def isPTR : Expr → Bool
  | .ptr _ => true
  | _ => false

def ptr? : Expr → Option (PTR Expr)
  | .ptr p => some p
  | _ => none

def num? : Expr → Option Int
  | .num n _ _ => some n
  | _ => none

mutual

/-- `==` between two values. -/
def same : Expr → Expr → Bool
  | .scalar s i, .scalar s' i' => s = s' && i = i'
  | .joinValue b r _ _, .joinValue b' r' _ _ => b = b' && r = r'
  | .ingressIfindex, .ingressIfindex => true
  | .rxQueueIndex, .rxQueueIndex => true
  | .egressIfindex, .egressIfindex => true
  | .pktLen s b, .pktLen s' b' => s = s' && b = b'
  | .funcRetval r, .funcRetval r' => r.idx = r'.idx && r.func = r'.func
  | .pktVal b i o v s, .pktVal b' i' o' v' s' =>
      b = b' && i = i' && o = o' && sameOpt v v' && s = s'
  | .mapVal b i m k ki o v s, .mapVal b' i' m' k' ki' o' v' s' =>
      b = b' && i = i' && m = m' && sameOpt k k' && ki = ki' && o = o' && sameOpt v v' && s = s'
  | .bssVal b i k o v s, .bssVal b' i' k' o' v' s' =>
      b = b' && i = i' && k = k' && o = o' && sameOpt v v' && s = s'
  | .rodataVal d o v s, .rodataVal d' o' v' s' =>
      d = d' && o = o' && sameOpt v v' && s = s'
  | .lookupHit m k ki, .lookupHit m' k' ki' => m = m' && sameOpt k k' && ki = ki'
  | .num n _ i, .num n' _ i' => n = n' && i = i'
  | .byteSeq c s o, .byteSeq c' s' o' => sameList c c' && s = s' && o = o'
  | .unary op d os im s a, .unary op' d' os' im' s' a' =>
      op = op' && sameOpt d d' && os = os' && im = im' && s = s' && a = a'
  | .binary op d r o s _, .binary op' d' r' o' s' _ =>
      op = op' && sameOpt d d' && sameOpt r r' && o = o' && s = s'
  | .ptr ⟨t, o, v, _, b, m, _, mk, _, _, _, _, _⟩, .ptr ⟨t', o', v', _, b', m', _, mk', _, _, _, _, _⟩ =>
      -- which fields identify the object depends on the region
      match t with
      | .PKT | .PKT_END | .PKT_META => t = t' && o = o' && sameOpt v v' && b = b'
      | .MAP_VALUE => t = t' && o = o' && sameOpt v v' && m = m' && mk = mk'
      | _ => t = t' && o = o' && sameOpt v v'
  | _, _ => false
termination_by structural e => e

def sameOpt : Option Expr → Option Expr → Bool
  | none, none => true
  | some a, some b => same a b
  | _, _ => false
termination_by structural e => e

def sameList : List (Option Expr) → List (Option Expr) → Bool
  | [], [] => true
  | a :: as, b :: bs => sameOpt a b && sameList as bs
  | _, _ => false
termination_by structural e => e

end

mutual

theorem same_refl : (e : Expr) → same e e = true
  | .scalar .. | .joinValue .. | .ingressIfindex | .rxQueueIndex | .egressIfindex | .pktLen ..
  | .funcRetval _ | .num .. => by simp [same]
  | .pktVal _ _ _ v _ | .bssVal _ _ _ _ v _ | .rodataVal _ _ v _ => by simp [same, sameOpt_refl v]
  | .mapVal _ _ _ k _ _ v _ => by simp [same, sameOpt_refl k, sameOpt_refl v]
  | .lookupHit _ k _ => by simp [same, sameOpt_refl k]
  | .byteSeq cs _ _ => by simp [same, sameList_refl cs]
  | .unary _ d _ _ _ _ => by simp [same, sameOpt_refl d]
  | .binary _ d s _ _ _ => by simp [same, sameOpt_refl d, sameOpt_refl s]
  | .ptr ⟨t, _, v, _, _, _, _, _, _, _, _, _, _⟩ => by
      have hv := sameOpt_refl v
      cases t <;> simp [same, hv]

theorem sameOpt_refl : (o : Option Expr) → sameOpt o o = true
  | none => by simp [sameOpt]
  | some e => by rw [sameOpt, same_refl e]

theorem sameList_refl : (es : List (Option Expr)) → sameList es es = true
  | [] => by simp [sameList]
  | e :: es => by simp [sameList, sameOpt_refl e, sameList_refl es]

end

end Expr

/-- The exceptions and failed assertions of the tracker, one for each place that
raises. -/
inductive TrackError where
  | sextOfPointer
  | unallowedArithmetic (code : AluOp) (t : PtrType)
  | twoPointers (idx : Nat)
  | pktEndOnlySubtracted (idx : Nat)
  | variableOffset (t : PtrType) (idx : Nat)
  | ldMode (mode : OpMode)
  | ldxMode (mode : OpMode)
  | relocation (idx : Nat)
  | srcRegNotPTR (reg : Reg)
  | dstRegNotPTR (reg : Reg)
  | loadNotNonNull
  | storeNotNonNull
  | ctxAccessSize
  | ctxAccessOffset (addr : Int)
  | unallowedLoad (t : PtrType)
  | unallowedStore (t : PtrType)
  | ctxWriteAddr
  | ctxWriteSize
  | legacyPacketAccess
  | stxMode (mode : OpMode)
  | atomicTarget
  | atomicNotImplemented (op : Int)
  | noNegation (code : JmpOp)
  | nullTestOperand
  | unidentifiedComparison (code : JmpOp)
  | helperArgument (imm idx : Int)
  | noMapInfo (mapId : Option Nat)
  | tailCall (idx : Nat)
  | unknownHelper (imm : Int)
  | stackIndex (addr : Int)
  | emptySlot (addr : Int)
  | noPredecessors (num : Nat)
  | factWithoutId (num : Nat)
  | tailViews (num : Nat)
  | noNextBlock
  | noInstruction (idx : Nat)
  deriving DecidableEq, Repr

def imm64 (imm : Int) : Expr := .num imm (if 0 ≤ imm then 4 else 8) (-1)

/-- An instruction on two values; two constants are folded. Without a value on
either side the result is still a term. -/
def exprAlu (dst src : Option Expr) (code : AluOp) (size : AluSize) (idx : Int := -1)
    (offset : Int := 0) : Option Expr :=
  match dst, src with
  | some (.num d _ _), some (.num s _ _) =>
      let signed := offset = 1 && (code = .DIV || code = .MOD)
      match size with
      | .b4 => some (.num (arith code d s 32 signed) 4 idx)
      | .b8 => some (.num (arith code d s 64 signed) 8 idx)
  | _, _ =>
      if (code = .ADD || code = .SUB) && (src.bind Expr.num?) = some 0 then dst
      else some (.binary code dst src offset size idx)

/-- Whether `exprAlu` hands back its first operand itself, the object identity
that `trackAlu` asks about. -/
def exprAluKeepsDst (dst src : Option Expr) (code : AluOp) : Bool :=
  !((dst.bind Expr.num?).isSome && (src.bind Expr.num?).isSome) &&
    (code = .ADD || code = .SUB) && (src.bind Expr.num?) = some 0

def trunc32 (value : Option Expr) (idx : Int := -1) : Option Expr :=
  match value with
  | none => none
  | some (.ptr p) => some (.ptr p)
  | some (.num n _ _) => some (.num (n % 2 ^ 32) 4 idx)
  | some v =>
      if v.size ≤ 4 then some v
      else some (.binary .AND (some v) (some (.num 0xFFFFFFFF 4 (-1))) 0 .b4 idx)

/-- Sign extension from `bits` bits. -/
def sext (value : Option Expr) (bits : Int) (size : Nat) (idx : Int) :
    Except TrackError (Option Expr) :=
  match value with
  | none => pure none
  | some (.ptr _) => throw .sextOfPointer
  | some (.num n _ _) =>
      let v := signedOf bits.toNat (n % 2 ^ bits.toNat)
      if size = 4 then pure (some (.num (v % 2 ^ 32) 4 idx)) else pure (some (.num v 8 idx))
  | some v => pure (some (.unary .MOV (some v) .imm bits size (size = 8)))

def PTR.totalOffset (p : PTR Expr) : Expr :=
  match p.varOff with
  | none => .num p.off 8 (-1)
  | some v => (exprAlu (some v) (some (.num p.off 8 (-1))) .ADD .b4).getD v

end Hornet
