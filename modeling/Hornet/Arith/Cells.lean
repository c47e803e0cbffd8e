import Hornet.Arith.Lowering
import Mathlib.Tactic.Ring

/-!
The numbers that concatenated cells make up, and the byte swap as one of them.
-/

namespace Hornet

open Smt

section Cells

variable (m : ZModel)

/-- The number that cells given lowest first make up. -/
def cellsNat : List ZBv → Nat
  | [] => 0
  | c :: cs => c.toNat m + 2 ^ c.size * cellsNat cs

theorem toNat_concatLE (b : ZBv) (cs : List ZBv) : (concatLE b cs).toNat m = cellsNat m (b :: cs) := by
  induction cs generalizing b with
  | nil => simp [concatLE, cellsNat]
  | cons c cs ih =>
      have hb : (b.term.eval m).toNat < 2 ^ b.size := (b.term.eval m).isLt
      simp only [concatLE, Bv.toNat_mk, Term.eval_concat, BitVec.toNat_cast, BitVec.toNat_append]
      rw [← Nat.shiftLeft_add_eq_or_of_lt hb, Nat.shiftLeft_eq]
      have hrest : ((concatLE c cs).term.eval m).toNat = cellsNat m (c :: cs) := ih c
      have hcell : cellsNat m (b :: c :: cs) =
          (b.term.eval m).toNat + 2 ^ b.size * cellsNat m (c :: cs) := rfl
      rw [hrest, hcell, Nat.mul_comm, Nat.add_comm]

theorem size_concatLE (b : ZBv) (cs : List ZBv) :
    (concatLE b cs).size = ((b :: cs).map (·.size)).sum := by
  induction cs generalizing b with
  | nil => simp [concatLE]
  | cons c cs ih =>
      simp only [concatLE, ih c, List.map_cons, List.sum_cons]
      omega

/-- The `n` low bytes of a number in reverse order. -/
def swapNat : Nat → Nat → Nat
  | 0, _ => 0
  | n + 1, x => swapNat n (x / 256) + x % 256 * 256 ^ n

theorem swapNat_succ (n x : Nat) : swapNat (n + 1) x = x / 256 ^ n % 256 + 256 * swapNat n x := by
  induction n generalizing x with
  | zero => simp [swapNat]
  | succ n ih =>
      calc swapNat (n + 2) x = swapNat (n + 1) (x / 256) + x % 256 * 256 ^ (n + 1) := rfl
        _ = (x / 256 / 256 ^ n % 256 + 256 * swapNat n (x / 256)) + x % 256 * 256 ^ (n + 1) := by
            rw [ih]
        _ = x / 256 ^ (n + 1) % 256 + 256 * swapNat (n + 1) x := by
            rw [Nat.div_div_eq_div_mul, swapNat, Nat.pow_succ 256 n]
            ring_nf

theorem swapNat_lt (n x : Nat) : swapNat n x < 256 ^ n := by
  induction n generalizing x with
  | zero => simp [swapNat]
  | succ n ih =>
      have hrest := ih (x / 256)
      have hlow : x % 256 ≤ 255 := by omega
      have hmul : x % 256 * 256 ^ n ≤ 255 * 256 ^ n := Nat.mul_le_mul_right _ hlow
      rw [swapNat, Nat.pow_succ]
      omega

/-- Only the low bytes matter. -/
theorem swapNat_mod (n x : Nat) : swapNat n (x % 256 ^ n) = swapNat n x := by
  induction n generalizing x with
  | zero => rfl
  | succ n ih =>
      have hlow : x % 256 ^ (n + 1) % 256 = x % 256 :=
        Nat.mod_mod_of_dvd x (dvd_pow_self 256 (Nat.succ_ne_zero n))
      have hhigh : x % 256 ^ (n + 1) / 256 = x / 256 % 256 ^ n := by
        rw [Nat.pow_succ, Nat.mul_comm, Nat.mod_mul_right_div_self]
      rw [swapNat, hlow, hhigh, ih, swapNat]

theorem toNat_byteSwap {n : Nat} (hn : n ≤ 8) (d : BitVec 64) :
    (Isa.byteSwap n d).toNat = swapNat n d.toNat := by
  induction n generalizing d with
  | zero => rfl
  | succ n ih =>
      have hlow : (d &&& 0xff#64).toNat = d.toNat % 256 := by
        rw [BitVec.toNat_and]
        exact Nat.and_two_pow_sub_one_eq_mod d.toNat 8
      have hpow : (256 : Nat) ^ n = 2 ^ (8 * n) := by rw [Nat.pow_mul]
      have hle : 256 ^ (n + 1) ≤ 2 ^ 64 := by
        calc 256 ^ (n + 1) ≤ 256 ^ 8 := Nat.pow_le_pow_right (by decide) hn
          _ = 2 ^ 64 := by decide
      have hhigh : d.toNat % 256 * 256 ^ n < 2 ^ 64 := by
        refine lt_of_lt_of_le ?_ hle
        rw [Nat.pow_succ, Nat.mul_comm]
        exact Nat.mul_lt_mul_of_pos_left (by omega) (Nat.pow_pos (by decide))
      have hrest : (d >>> 8).toNat = d.toNat / 256 := by
        rw [BitVec.toNat_ushiftRight, Nat.shiftRight_eq_div_pow]
      rw [Isa.byteSwap, BitVec.toNat_or, ih (by omega), hrest, BitVec.toNat_shiftLeft, hlow,
        Nat.shiftLeft_eq, ← hpow, Nat.mod_eq_of_lt hhigh, Nat.or_comm, hpow, ← Nat.shiftLeft_eq,
        ← Nat.shiftLeft_add_eq_or_of_lt, Nat.shiftLeft_eq, swapNat, hpow, Nat.add_comm]
      rw [← hpow]
      exact swapNat_lt n _

/-- The cells of a byte swap. -/
theorem cellsNat_reverse_bytes {w : Nat} (low : ZTerm (.bv w)) (n : Nat) :
    cellsNat m (((List.range n).map fun i => (⟨8, .extract (8 * i) 8 low⟩ : ZBv)).reverse) =
      swapNat n (low.eval m).toNat := by
  induction n with
  | zero => rfl
  | succ n ih =>
      rw [List.range_succ, List.map_append, List.reverse_append, swapNat_succ]
      simp only [List.map_cons, List.map_nil, List.reverse_cons, List.reverse_nil, List.nil_append,
        List.cons_append, cellsNat, ih, Bv.toNat_mk, Term.eval_extract, BitVec.extractLsb'_toNat,
        Nat.shiftRight_eq_div_pow, Nat.pow_mul]
      rfl

/-- The term of a byte swap. -/
theorem toNat_swappedCells {w : Nat} (low : ZTerm (.bv w)) {n : Nat} (hpos : 0 < n) :
    ∃ t, concatCells (((List.range n).map fun i =>
        (⟨8, .extract (8 * i) 8 low⟩ : ZBv)).reverse) = .ok t ∧
      t.toNat m = swapNat n (low.eval m).toNat := by
  obtain ⟨b, bs, hcells⟩ : ∃ b bs, (((List.range n).map fun i =>
      (⟨8, .extract (8 * i) 8 low⟩ : ZBv)).reverse) = b :: bs := by
    apply List.exists_cons_of_ne_nil
    simp
    omega
  refine ⟨concatLE b bs, by rw [hcells]; rfl, ?_⟩
  rw [toNat_concatLE, ← hcells, cellsNat_reverse_bytes]

end Cells

end Hornet
