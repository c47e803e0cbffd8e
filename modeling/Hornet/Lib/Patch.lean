import Mathlib.Data.BitVec

/-!
Words and byte arrays of which some places are overwritten, and numbers put together
from words.
-/

namespace Hornet.Lib

section Word

variable {w n : Nat}

/-- A word whose bits from `lo` on, as many as `v` has, are those of `v`. -/
def patch (cur : BitVec w) (lo : Nat) (v : BitVec n) : BitVec w :=
  (cur &&& ~~~((BitVec.allOnes n).setWidth w <<< lo)) ||| v.setWidth w <<< lo

theorem getLsbD_patch (cur : BitVec w) (lo : Nat) (v : BitVec n) {i : Nat} (hi : i < w) :
    (patch cur lo v).getLsbD i =
      if lo ≤ i ∧ i < lo + n then v.getLsbD (i - lo) else cur.getLsbD i := by
  simp only [patch, BitVec.getLsbD_or, BitVec.getLsbD_and, BitVec.getLsbD_not,
    BitVec.getLsbD_shiftLeft, BitVec.getLsbD_setWidth, BitVec.getLsbD_allOnes]
  by_cases hlo : i < lo
  · have hout : ¬(lo ≤ i ∧ i < lo + n) := by omega
    simp [hi, hlo, hout]
  · have hoff : i - lo < w := by omega
    by_cases hn : i - lo < n
    · have hin : lo ≤ i ∧ i < lo + n := by omega
      simp [hi, hlo, hoff, hn, hin]
    · have hout : ¬(lo ≤ i ∧ i < lo + n) := by omega
      have hzero : v.getLsbD (i - lo) = false := BitVec.getLsbD_of_ge v _ (by omega)
      simp [hi, hlo, hn, hout, hzero]

/-- Nothing is overwritten beyond the word. -/
theorem patch_beyond (cur : BitVec w) {lo : Nat} (h : w ≤ lo) (v : BitVec n) :
    patch cur lo v = cur := by
  apply BitVec.eq_of_getLsbD_eq
  intro i hi
  have hout : ¬(lo ≤ i ∧ i < lo + n) := by omega
  rw [getLsbD_patch cur lo v hi, if_neg hout]

end Word

section Bytes

variable {d n : Nat}

/-- The number that the `n` bytes from `a` on are, the lowest byte first. -/
def getBytes (mem : BitVec d → BitVec 8) (a : BitVec d) : Nat → Nat
  | 0 => 0
  | n + 1 => getBytes mem a n + 2 ^ (8 * n) * (mem (a + BitVec.ofNat d n)).toNat

/-- The array with the bytes of `v` from `a` on, the lowest byte first. -/
def putBytes (mem : BitVec d → BitVec 8) (a : BitVec d) (v : BitVec (n * 8)) : BitVec d → BitVec 8 :=
  fun i => if (i - a).toNat < n then v.extractLsb' ((i - a).toNat * 8) 8 else mem i

/-- The array after the first bytes have been written one by one. -/
theorem foldl_set_bytes (mem : BitVec d → BitVec 8) (a : BitVec d) (v : BitVec (n * 8))
    {k : Nat} (hk : k ≤ 2 ^ d) :
    (List.range k).foldl (fun mem i => fun j =>
        if j = a + BitVec.ofNat d i then v.extractLsb' (i * 8) 8 else mem j) mem =
      fun i => if (i - a).toNat < k then v.extractLsb' ((i - a).toNat * 8) 8 else mem i := by
  induction k with
  | zero => rfl
  | succ k ih =>
      have hplace : ∀ j : BitVec d, j = a + BitVec.ofNat d k ↔ (j - a).toNat = k := by
        intro j
        have hk' : k = (BitVec.ofNat d k).toNat := by
          rw [BitVec.toNat_ofNat, Nat.mod_eq_of_lt (by omega)]
        rw [← sub_eq_iff_eq_add', ← BitVec.toNat_inj, ← hk']
      rw [List.range_succ, List.foldl_append, ih (by omega)]
      funext j
      simp only [List.foldl_cons, List.foldl_nil, hplace]
      by_cases hlast : (j - a).toNat = k
      · have hlt : (j - a).toNat < k + 1 := by omega
        rw [if_pos hlast, if_pos hlt, hlast]
      · rw [if_neg hlast]
        by_cases hlt : (j - a).toNat < k
        · have hlt' : (j - a).toNat < k + 1 := by omega
          rw [if_pos hlt, if_pos hlt']
        · have hge : ¬ (j - a).toNat < k + 1 := by omega
          rw [if_neg hlt, if_neg hge]

end Bytes

section Digits

variable {w : Nat}

/-- The number that words given lowest first make up. -/
def joinNat : List (BitVec w) → Nat
  | [] => 0
  | x :: xs => x.toNat + 2 ^ w * joinNat xs

theorem joinNat_append (xs ys : List (BitVec w)) :
    joinNat (xs ++ ys) = joinNat xs + 2 ^ (w * xs.length) * joinNat ys := by
  induction xs with
  | nil => simp [joinNat]
  | cons x xs ih =>
      rw [List.cons_append, joinNat, ih, joinNat, List.length_cons, Nat.mul_add w, Nat.mul_one,
        Nat.add_comm (w * xs.length), Nat.pow_add, Nat.mul_add, Nat.mul_assoc, Nat.add_assoc]

theorem testBit_joinNat (hw : 0 < w) (xs : List (BitVec w)) (p : Nat) :
    (joinNat xs).testBit p = (xs.getD (p / w) 0#w).getLsbD (p % w) := by
  induction xs generalizing p with
  | nil => simp [joinNat]
  | cons x xs ih =>
      rw [joinNat, Nat.add_comm, Nat.testBit_two_pow_mul_add _ x.isLt]
      by_cases hlt : p < w
      · rw [if_pos hlt, Nat.div_eq_of_lt hlt, Nat.mod_eq_of_lt hlt]
        rfl
      · have hpred : p / w = (p - w) / w + 1 := Nat.div_eq_sub_div hw (by omega)
        have hmod : p % w = (p - w) % w := Nat.mod_eq_sub_mod (by omega)
        rw [if_neg hlt, ih, hpred, hmod, List.getD_cons_succ]

theorem joinNat_lt (xs : List (BitVec w)) : joinNat xs < 2 ^ (w * xs.length) := by
  induction xs with
  | nil => simp [joinNat]
  | cons x xs ih =>
      have hx : x.toNat < 2 ^ w := x.isLt
      calc joinNat (x :: xs) = x.toNat + 2 ^ w * joinNat xs := rfl
        _ < 2 ^ w * (joinNat xs + 1) := by
            rw [Nat.mul_add]
            omega
        _ ≤ 2 ^ w * 2 ^ (w * xs.length) := Nat.mul_le_mul_left _ ih
        _ = 2 ^ (w * (x :: xs).length) := by
            rw [← Nat.pow_add, List.length_cons, Nat.mul_add, Nat.mul_one, Nat.add_comm]

/-- As many words make up the same number only if they are the same. -/
theorem joinNat_inj {xs ys : List (BitVec w)} (hlen : xs.length = ys.length)
    (h : joinNat xs = joinNat ys) : xs = ys := by
  induction xs generalizing ys with
  | nil => exact (List.length_eq_zero_iff.mp hlen.symm).symm
  | cons x xs ih =>
      obtain ⟨y, ys, rfl⟩ := List.exists_cons_of_length_eq_add_one hlen.symm
      have hpos : 0 < 2 ^ w := Nat.two_pow_pos w
      have hlow := congrArg (· % 2 ^ w) h
      have hhigh := congrArg (· / 2 ^ w) h
      simp only [joinNat, Nat.add_mul_mod_self_left, Nat.mod_eq_of_lt x.isLt,
        Nat.mod_eq_of_lt y.isLt] at hlow
      simp only [joinNat, Nat.add_mul_div_left _ _ hpos, Nat.div_eq_of_lt x.isLt,
        Nat.div_eq_of_lt y.isLt, Nat.zero_add] at hhigh
      rw [BitVec.eq_of_toNat_eq hlow, ih (Nat.succ.inj hlen) hhigh]

theorem exists_joinNat {n k : Nat} (h : n < 2 ^ (w * k)) :
    ∃ xs : List (BitVec w), xs.length = k ∧ joinNat xs = n := by
  induction k generalizing n with
  | zero => exact ⟨[], rfl, (Nat.lt_one_iff.mp h).symm⟩
  | succ k ih =>
      have hhigh : n / 2 ^ w < 2 ^ (w * k) := by
        apply Nat.div_lt_of_lt_mul
        rwa [← Nat.pow_add, Nat.add_comm, ← Nat.mul_succ]
      obtain ⟨xs, hlen, hjoin⟩ := ih hhigh
      refine ⟨BitVec.ofNat w n :: xs, by rw [List.length_cons, hlen], ?_⟩
      rw [joinNat, hjoin, BitVec.toNat_ofNat]
      exact Nat.mod_add_div n (2 ^ w)

/-- The words are the digits of the number. -/
theorem digit_joinNat (xs : List (BitVec w)) (i : Nat) :
    joinNat xs / 2 ^ (w * i) % 2 ^ w = (xs.getD i 0#w).toNat := by
  induction xs generalizing i with
  | nil => simp [joinNat]
  | cons x xs ih =>
      cases i with
      | zero => simp [joinNat, Nat.add_mul_mod_self_left, Nat.mod_eq_of_lt x.isLt]
      | succ i =>
          have hdiv : joinNat (x :: xs) / 2 ^ w = joinNat xs := by
            rw [joinNat, Nat.add_mul_div_left _ _ (Nat.two_pow_pos w), Nat.div_eq_of_lt x.isLt,
              Nat.zero_add]
          rw [Nat.mul_succ, Nat.add_comm, Nat.pow_add, ← Nat.div_div_eq_div_mul, hdiv, ih,
            List.getD_cons_succ]

/-- The words at the low end of a number. -/
theorem digit_of_mod {n : Nat} {xs : List (BitVec w)} (h : n % 2 ^ (w * xs.length) = joinNat xs)
    {i : Nat} (hi : i < xs.length) : BitVec.ofNat w (n / 2 ^ (w * i)) = xs[i] := by
  have hsplit : 2 ^ (w * xs.length) = 2 ^ (w * i) * 2 ^ (w * (xs.length - i)) := by
    rw [← Nat.pow_add, ← Nat.mul_add, Nat.add_sub_cancel' (Nat.le_of_lt hi)]
  have hdvd : 2 ^ w ∣ 2 ^ (w * (xs.length - i)) :=
    Nat.pow_dvd_pow 2 (Nat.le_mul_of_pos_right w (Nat.sub_pos_of_lt hi))
  have hdigit := digit_joinNat xs i
  rw [← h, hsplit, Nat.mod_mul_right_div_self, Nat.mod_mod_of_dvd _ hdvd] at hdigit
  apply BitVec.eq_of_toNat_eq
  rw [BitVec.toNat_ofNat, hdigit, List.getD_eq_getElem?_getD, List.getElem?_eq_getElem hi]
  rfl

end Digits

end Hornet.Lib
