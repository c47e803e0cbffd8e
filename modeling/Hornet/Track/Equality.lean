import Hornet.Track.Expr
import Mathlib.Tactic.Common

/-!
Equality and hashing of values. What `==` compares is a normal form without the fields
that it passes over, and a hash is a function of that form. So `==` is an equivalence that
hashes respect, and comparing hashes first, as the operations do, changes no answer.
-/

namespace Hornet

/-- The regions whose pointers name a version of the packet. -/
def PtrType.isPacket : PtrType → Bool
  | .PKT | .PKT_END | .PKT_META => true
  | _ => false

namespace Expr

/-! ## The fields that are compared -/

mutual

/-- The value without what `==` passes over. -/
def key : Expr → Expr
  | .joinValue b r _ _ => .joinValue b r [] []
  | .funcRetval r => .funcRetval { idx := r.idx, func := r.func, block := 0 }
  | .pktVal b i o v s => .pktVal b i o (keyOpt v) s
  | .mapVal b i m k ki o v s => .mapVal b i m (keyOpt k) ki o (keyOpt v) s
  | .bssVal b i k o v s => .bssVal b i k o (keyOpt v) s
  | .rodataVal d o v s => .rodataVal d o (keyOpt v) s
  | .lookupHit m k ki => .lookupHit m (keyOpt k) ki
  | .num n _ i => .num n 0 i
  | .byteSeq c s o => .byteSeq (keyList c) s o
  | .unary op d os im s a => .unary op (keyOpt d) os im s a
  | .binary op d r o s _ => .binary op (keyOpt d) (keyOpt r) o s 0
  | .ptr ⟨t, o, v, _, b, m, _, mk, _, _, _, _, _⟩ =>
      .ptr { ptrType := t, off := o, varOff := keyOpt v, baseId := if t.isPacket then b else none,
             mapId := if t = .MAP_VALUE then m else none
             mapKeyId := if t = .MAP_VALUE then mk else none }
  | e => e
termination_by structural e => e

def keyOpt : Option Expr → Option Expr
  | none => none
  | some e => some (key e)
termination_by structural e => e

def keyList : List (Option Expr) → List (Option Expr)
  | [] => []
  | e :: es => keyOpt e :: keyList es
termination_by structural e => e

end

mutual

theorem same_iff_key : (a b : Expr) → (same a b = true ↔ key a = key b)
  | .scalar .., b | .joinValue .., b | .ingressIfindex, b | .rxQueueIndex, b | .egressIfindex, b
  | .pktLen .., b | .funcRetval _, b | .num .., b => by
      cases b <;> simp [same, key]
  | .pktVal _ _ _ v _, b => by
      cases b <;> simp [same, key, sameOpt_iff_key v, and_assoc]
  | .bssVal _ _ _ _ v _, b => by
      cases b <;> simp [same, key, sameOpt_iff_key v, and_assoc]
  | .rodataVal _ _ v _, b => by
      cases b <;> simp [same, key, sameOpt_iff_key v, and_assoc]
  | .mapVal _ _ _ k _ _ v _, b => by
      cases b <;> simp [same, key, sameOpt_iff_key k, sameOpt_iff_key v, and_assoc]
  | .lookupHit _ k _, b => by
      cases b <;> simp [same, key, sameOpt_iff_key k, and_assoc]
  | .byteSeq cs _ _, b => by
      cases b <;> simp [same, key, sameList_iff_key cs, and_assoc]
  | .unary _ d _ _ _ _, b => by
      cases b <;> simp [same, key, sameOpt_iff_key d, and_assoc]
  | .binary _ d s _ _ _, b => by
      cases b <;> simp [same, key, sameOpt_iff_key d, sameOpt_iff_key s, and_assoc]
  | .ptr ⟨t, _, v, _, _, _, _, _, _, _, _, _, _⟩, b => by
      have hv := sameOpt_iff_key v
      cases b with
      | ptr q =>
          obtain ⟨t', _, v', _, _, _, _, _, _, _, _, _, _⟩ := q
          by_cases htt : t = t'
          · subst htt
            cases t <;> simp [same, key, hv, PtrType.isPacket, and_assoc]
          · cases t <;> simp [same, key, htt]
      | _ => cases t <;> simp [same, key]

theorem sameOpt_iff_key : (a b : Option Expr) → (sameOpt a b = true ↔ keyOpt a = keyOpt b)
  | none, b => by cases b <;> simp [sameOpt, keyOpt]
  | some a, b => by cases b <;> simp [sameOpt, keyOpt, same_iff_key a]

theorem sameList_iff_key : (as bs : List (Option Expr)) →
    (sameList as bs = true ↔ keyList as = keyList bs)
  | [], bs => by cases bs <;> simp [sameList, keyList]
  | a :: as, bs => by
      cases bs <;> simp [sameList, keyList, sameOpt_iff_key a, sameList_iff_key as]

end

/-! ## Hashes -/

/-- The built-in hashes: that of a tuple is made of the hashes of its items, and a hash is
itself a number with a hash. -/
structure PyHash (H : Type) where
  none : H
  int : Int → H
  bool : Bool → H
  str : String → H
  bytes : List UInt8 → H
  op : AluOp → H
  opSrc : OpSrc → H
  region : PtrType → H
  aluUnary : H
  aluBinary : H
  tuple : List H → H
  again : H → H

section Hash

variable {H : Type} (P : PyHash H)

def PyHash.opt {α : Type} (f : α → H) : Option α → H
  | .none => P.none
  | some a => f a

mutual

/-- `hash` of a value. -/
def hash : Expr → H
  | .scalar s i => P.tuple [P.int s, P.int i]
  | .joinValue b r _ _ => P.tuple [P.int 8, P.int (-1), P.int b, P.int r]
  | .ingressIfindex | .rxQueueIndex | .egressIfindex => P.tuple [P.int 4, P.int (-1)]
  | .pktLen s b => P.tuple [P.int s, P.int (-1), P.opt P.int b]
  | .funcRetval r => P.tuple [P.int r.idx, P.int r.func]
  | .pktVal b i o v s => P.tuple [P.int s, P.int i, P.int b, P.int o, hashOpt v]
  | .mapVal b i m k ki o v s =>
      P.tuple [P.int s, P.int i, P.int b, P.opt (fun m => P.int m) m, hashOpt k, P.opt P.int ki,
        P.int o, hashOpt v]
  | .bssVal b i k o v s => P.tuple [P.int s, P.int i, P.int b, P.opt P.str k, P.int o, hashOpt v]
  | .rodataVal d o v s => P.tuple [P.int s, P.int (-1), P.bytes d, P.int o, hashOpt v]
  | .lookupHit m k ki =>
      P.tuple [P.int 1, P.int (-1), P.opt (fun m => P.int m) m, hashOpt k, P.opt P.int ki]
  | .num n _ _ => P.int n
  | .byteSeq c s o => P.tuple [P.int s, P.tuple (hashList c), P.int o]
  | .unary op d os im s a =>
      P.tuple [P.aluUnary, P.op op, P.int s, P.int im, P.opSrc os, P.bool a, P.again (hashOpt d)]
  | .binary op d r o s _ =>
      P.tuple [P.aluBinary, P.op op, P.int s.bytes, P.int o, P.again (hashOpt d), P.again (hashOpt r)]
  | .ptr ⟨t, o, _, _, _, _, _, _, _, _, _, _, _⟩ => P.tuple [P.region t, P.int o]
termination_by structural e => e

def hashOpt : Option Expr → H
  | none => P.none
  | some e => hash e
termination_by structural e => e

def hashList : List (Option Expr) → List H
  | [] => []
  | e :: es => hashOpt e :: hashList es
termination_by structural e => e

end

mutual

theorem hash_key : (e : Expr) → hash P (key e) = hash P e
  | .scalar .. | .joinValue .. | .ingressIfindex | .rxQueueIndex | .egressIfindex | .pktLen ..
  | .funcRetval _ | .num .. => by simp [hash, key]
  | .pktVal _ _ _ v _ | .bssVal _ _ _ _ v _ | .rodataVal _ _ v _ => by
      simp [hash, key, hashOpt_keyOpt v]
  | .mapVal _ _ _ k _ _ v _ => by simp [hash, key, hashOpt_keyOpt k, hashOpt_keyOpt v]
  | .lookupHit _ k _ => by simp [hash, key, hashOpt_keyOpt k]
  | .byteSeq cs _ _ => by simp [hash, key, hashList_keyList cs]
  | .unary _ d _ _ _ _ => by simp [hash, key, hashOpt_keyOpt d]
  | .binary _ d r _ _ _ => by simp [hash, key, hashOpt_keyOpt d, hashOpt_keyOpt r]
  | .ptr ⟨_, _, _, _, _, _, _, _, _, _, _, _, _⟩ => by simp [hash, key]

theorem hashOpt_keyOpt : (o : Option Expr) → hashOpt P (keyOpt o) = hashOpt P o
  | none => rfl
  | some e => by rw [keyOpt, hashOpt, hashOpt, hash_key e]

theorem hashList_keyList : (es : List (Option Expr)) → hashList P (keyList es) = hashList P es
  | [] => rfl
  | e :: es => by rw [keyList, hashList, hashList, hashOpt_keyOpt e, hashList_keyList es]

end

theorem hash_eq_of_same {a b : Expr} (h : same a b = true) : hash P a = hash P b := by
  rw [← hash_key P a, ← hash_key P b, (same_iff_key a b).mp h]

/-! ## Comparing hashes first -/

variable [DecidableEq H]

theorem passed_of_same {a b : Expr} :
    (if hash P b ≠ hash P a then false else same a b) = same a b := by
  split
  · rename_i hne
    exact (Bool.eq_false_iff.mpr fun h => hne (hash_eq_of_same P h).symm).symm
  · rfl

mutual

/-- `==` as the classes define it: two operations are compared field by field only if
their hashes agree. -/
def eq : Expr → Expr → Bool
  | .pktVal b i o v s, .pktVal b' i' o' v' s' =>
      b = b' && i = i' && o = o' && eqOpt v v' && s = s'
  | .mapVal b i m k ki o v s, .mapVal b' i' m' k' ki' o' v' s' =>
      b = b' && i = i' && m = m' && eqOpt k k' && ki = ki' && o = o' && eqOpt v v' && s = s'
  | .bssVal b i k o v s, .bssVal b' i' k' o' v' s' =>
      b = b' && i = i' && k = k' && o = o' && eqOpt v v' && s = s'
  | .rodataVal d o v s, .rodataVal d' o' v' s' => d = d' && o = o' && eqOpt v v' && s = s'
  | .lookupHit m k ki, .lookupHit m' k' ki' => m = m' && eqOpt k k' && ki = ki'
  | .byteSeq c s o, .byteSeq c' s' o' => eqList c c' && s = s' && o = o'
  | .unary op d os im s a, other =>
      match other with
      | .unary op' d' os' im' s' a' =>
          if hash P (.unary op' d' os' im' s' a') ≠ hash P (.unary op d os im s a) then false
          else op = op' && s = s' && im = im' && os = os' && a = a' && eqOpt d d'
      | _ => false
  | .binary op d r o s i, other =>
      match other with
      | .binary op' d' r' o' s' i' =>
          if hash P (.binary op' d' r' o' s' i') ≠ hash P (.binary op d r o s i) then false
          else op = op' && s = s' && o = o' && eqOpt d d' && eqOpt r r'
      | _ => false
  | .ptr ⟨t, o, v, _, b, m, _, mk, _, _, _, _, _⟩, .ptr ⟨t', o', v', _, b', m', _, mk', _, _, _, _, _⟩ =>
      if t ≠ t' then false
      else
        match t with
        | .PKT | .PKT_END | .PKT_META => o = o' && eqOpt v v' && b = b'
        | .MAP_VALUE => o = o' && eqOpt v v' && m = m' && mk = mk'
        | _ => o = o' && eqOpt v v'
  | a, b => same a b
termination_by structural e => e

def eqOpt : Option Expr → Option Expr → Bool
  | none, none => true
  | some a, some b => eq a b
  | _, _ => false
termination_by structural e => e

def eqList : List (Option Expr) → List (Option Expr) → Bool
  | [], [] => true
  | a :: as, b :: bs => eqOpt a b && eqList as bs
  | _, _ => false
termination_by structural e => e

end

mutual

theorem eq_eq_same : (a b : Expr) → eq P a b = same a b
  | .scalar .., b | .joinValue .., b | .ingressIfindex, b | .rxQueueIndex, b | .egressIfindex, b
  | .pktLen .., b | .funcRetval _, b | .num .., b => by rw [eq] <;> simp
  | .pktVal _ _ _ v _, b | .bssVal _ _ _ _ v _, b | .rodataVal _ _ v _, b => by
      cases b <;> simp [eq, same, eqOpt_eq_sameOpt v]
  | .mapVal _ _ _ k _ _ v _, b => by
      cases b <;> simp [eq, same, eqOpt_eq_sameOpt k, eqOpt_eq_sameOpt v]
  | .lookupHit _ k _, b => by cases b <;> simp [eq, same, eqOpt_eq_sameOpt k]
  | .byteSeq cs _ _, b => by cases b <;> simp [eq, same, eqList_eq_sameList cs]
  | .unary op d os im s a, b => by
      cases b with
      | unary op' d' os' im' s' a' =>
          have hsame : (decide (op = op') && decide (s = s') && decide (im = im') &&
              decide (os = os') && decide (a = a') && eqOpt P d d') =
                same (.unary op d os im s a) (.unary op' d' os' im' s' a') := by
            rw [eqOpt_eq_sameOpt d, same]
            ac_rfl
          rw [eq, hsame]
          exact passed_of_same P
      | _ => simp [eq, same]
  | .binary op d r o s i, b => by
      cases b with
      | binary op' d' r' o' s' i' =>
          have hsame : (decide (op = op') && decide (s = s') && decide (o = o') &&
              eqOpt P d d' && eqOpt P r r') =
                same (.binary op d r o s i) (.binary op' d' r' o' s' i') := by
            rw [eqOpt_eq_sameOpt d, eqOpt_eq_sameOpt r, same]
            ac_rfl
          rw [eq, hsame]
          exact passed_of_same P
      | _ => simp [eq, same]
  | .ptr ⟨t, _, v, _, _, _, _, _, _, _, _, _, _⟩, b => by
      have hv := eqOpt_eq_sameOpt v
      cases b with
      | ptr q =>
          obtain ⟨t', _, v', _, _, _, _, _, _, _, _, _, _⟩ := q
          by_cases htt : t = t'
          · subst htt
            cases t <;> simp [eq, same, hv]
          · cases t <;> simp [eq, same, htt]
      | _ => cases t <;> simp [eq, same]

theorem eqOpt_eq_sameOpt : (a b : Option Expr) → eqOpt P a b = sameOpt a b
  | none, b => by cases b <;> simp [eqOpt, sameOpt]
  | some a, b => by cases b <;> simp [eqOpt, sameOpt, eq_eq_same a]

theorem eqList_eq_sameList : (as bs : List (Option Expr)) → eqList P as bs = sameList as bs
  | [], bs => by cases bs <;> simp [eqList, sameList]
  | a :: as, bs => by
      cases bs <;> simp [eqList, sameList, eqOpt_eq_sameOpt a, eqList_eq_sameList as]

end

/-- `==` on values is an equivalence, values that are equal have one hash, and looking at
the hashes of operations first does not change which values are equal. -/
theorem equality_contract :
    Equivalence (fun a b => eq P a b = true) ∧
      (∀ a b, eq P a b = true → hash P a = hash P b) ∧ ∀ a b, eq P a b = same a b := by
  refine ⟨⟨fun a => ?_, fun {a b} h => ?_, fun {a b c} h h' => ?_⟩, fun a b h => ?_, eq_eq_same P⟩
  · rw [eq_eq_same]
    exact same_refl a
  · rw [eq_eq_same, same_iff_key] at h ⊢
    exact h.symm
  · rw [eq_eq_same, same_iff_key] at h h' ⊢
    exact h.trans h'
  · rw [eq_eq_same] at h
    exact hash_eq_of_same P h

end Hash

end Expr

end Hornet
