import Hornet.Arith.Lowering

/-!
Constant folding agrees with the instruction set. `arith` computes on unbounded
integers; read modulo the operation width its results are those of the bit-vector
operations.
-/

namespace Hornet

open Smt

theorem ofInt_emod (w : Nat) (n : Int) : BitVec.ofInt w (n % 2 ^ w) = BitVec.ofInt w n := by
  apply BitVec.eq_of_toNat_eq
  simp

theorem getLsbD_ofInt {w : Nat} (n : Int) (i : Nat) :
    (BitVec.ofInt w n).getLsbD i = (decide (i < w) && Int.testBit n i) := by
  cases n with
  | ofNat n => simp [Int.testBit, BitVec.getLsbD_ofNat]
  | negSucc n =>
      rw [BitVec.ofInt_negSucc_eq_not_ofNat, BitVec.getLsbD_not, BitVec.getLsbD_ofNat]
      by_cases h : i < w <;> simp [Int.testBit, h]

theorem ofInt_lor {w : Nat} (a b : Int) :
    BitVec.ofInt w (Int.lor a b) = BitVec.ofInt w a ||| BitVec.ofInt w b := by
  apply BitVec.eq_of_getLsbD_eq
  intro i hi
  simp only [getLsbD_ofInt, Int.testBit_lor, BitVec.getLsbD_or, hi, decide_true, Bool.true_and]

theorem ofInt_land {w : Nat} (a b : Int) :
    BitVec.ofInt w (Int.land a b) = BitVec.ofInt w a &&& BitVec.ofInt w b := by
  apply BitVec.eq_of_getLsbD_eq
  intro i hi
  simp only [getLsbD_ofInt, Int.testBit_land, BitVec.getLsbD_and, hi, decide_true, Bool.true_and]

theorem ofInt_xor {w : Nat} (a b : Int) :
    BitVec.ofInt w (Int.xor a b) = BitVec.ofInt w a ^^^ BitVec.ofInt w b := by
  apply BitVec.eq_of_getLsbD_eq
  intro i hi
  simp only [getLsbD_ofInt, Int.testBit_lxor, BitVec.getLsbD_xor, hi, decide_true, Bool.true_and]

theorem ofInt_sub {w : Nat} (a b : Int) :
    BitVec.ofInt w (a - b) = BitVec.ofInt w a - BitVec.ofInt w b := by
  rw [Int.sub_eq_add_neg, BitVec.ofInt_add, BitVec.ofInt_neg, BitVec.sub_eq_add_neg]

/-- The operations that `arith` leaves unmasked. -/
theorem ofInt_arithUnmasked {op : AluOp} (h : op ∈ [.ADD, .SUB, .MUL, .OR, .AND, .XOR]) {w : Nat}
    (signed : Bool) (a b : Int) :
    BitVec.ofInt w (arithUnmasked op a b) =
      Isa.binary op signed (BitVec.ofInt w a) (BitVec.ofInt w b) := by
  simp only [List.mem_cons, List.not_mem_nil, or_false] at h
  rcases h with rfl | rfl | rfl | rfl | rfl | rfl
  · exact BitVec.ofInt_add a b
  · exact ofInt_sub a b
  · exact BitVec.ofInt_mul a b
  · exact ofInt_lor a b
  · exact ofInt_land a b
  · exact ofInt_xor a b

section Width

variable {w : Nat}

/-- The masked operand is the unsigned value of the bit-vector. -/
theorem emod_eq_toNat (n : Int) : n % 2 ^ w = (BitVec.ofInt w n).toNat := by
  rw [BitVec.toNat_ofInt]
  have hpos : (0 : Int) < 2 ^ w := Int.pow_pos (by decide)
  have hcast : ((2 ^ w : Nat) : Int) = 2 ^ w := by push_cast; rfl
  rw [hcast, Int.toNat_of_nonneg (Int.emod_nonneg n hpos.ne')]

theorem signedOf_toNat (hw : 0 < w) (x : BitVec w) : signedOf w x.toNat = x.toInt := by
  unfold signedOf
  obtain ⟨k, rfl⟩ : ∃ k, w = k + 1 := ⟨w - 1, by omega⟩
  have hlt := x.isLt
  have hpow : (2 : Nat) ^ (k + 1) = 2 * 2 ^ k := by rw [Nat.pow_succ, Nat.mul_comm]
  have hpow' : (2 : Int) ^ (k + 1) = 2 * 2 ^ k := by rw [pow_succ, mul_comm]
  have hcast : ((2 ^ k : Nat) : Int) = 2 ^ k := by push_cast; rfl
  rw [BitVec.toInt_eq_toNat_cond, Nat.add_sub_cancel, hpow', hpow]
  split <;> split <;> omega

/-- The amount of a shift. -/
theorem shift_amount (hw : w ∣ 2 ^ w) (n : Int) :
    (n % w).toNat = (BitVec.ofInt w n).toNat % w := by
  have hdvd : (w : Int) ∣ 2 ^ w := by exact_mod_cast Int.natCast_dvd_natCast.mpr hw
  have hcast : ((BitVec.ofInt w n).toNat % w : Nat) = ((n % 2 ^ w) % w : Int) := by
    rw [emod_eq_toNat (w := w) n]
    push_cast
    rfl
  rw [Int.emod_emod_of_dvd n hdvd] at hcast
  omega

/-- A width whose amounts are read off the low bits of an operand. -/
structure ShiftWidth (w : Nat) : Prop where
  pos : 0 < w
  dvd : w ∣ 2 ^ w

theorem ofInt_shifts (hw : ShiftWidth w) {op : AluOp} (h : op ∈ [.LSH, .RSH, .ARSH]) (d s : Int)
    (signed : Bool) :
    BitVec.ofInt w (arith op d s w signed) =
      Isa.binary op signed (BitVec.ofInt w d) (BitVec.ofInt w s) := by
  have ha := emod_eq_toNat (w := w) d
  have hamt := shift_amount hw.dvd s
  simp only [List.mem_cons, List.not_mem_nil, or_false] at h
  rcases h with rfl | rfl | rfl
  · simp only [arith, Isa.binary, ha, hamt]
    rw [ofInt_emod]
    apply BitVec.eq_of_toNat_eq
    rw [BitVec.toNat_shiftLeft, Nat.shiftLeft_eq, ← BitVec.toNat_ofNat, ← BitVec.ofInt_natCast]
    push_cast
    rfl
  · simp only [arith, Isa.binary, ha, hamt]
    rw [← Nat.cast_ofNat, ← Nat.cast_pow, ← Int.natCast_ediv, BitVec.ofInt_natCast]
    apply BitVec.eq_of_toNat_eq
    rw [BitVec.toNat_ofNat, BitVec.toNat_ushiftRight, Nat.shiftRight_eq_div_pow,
      Nat.mod_eq_of_lt (lt_of_le_of_lt (Nat.div_le_self _ _) (BitVec.isLt _))]
  · simp only [arith, Isa.binary, ha, hamt]
    rw [ofInt_emod, signedOf_toNat hw.pos, BitVec.sshiftRight, Int.shiftRight_eq_div_pow]
    push_cast
    rfl

theorem toNat_eq_zero_iff (x : BitVec w) : (x.toNat : Int) = 0 ↔ x = 0#w := by
  constructor
  · intro h
    exact BitVec.eq_of_toNat_eq (by simpa using h)
  · rintro rfl
    simp

theorem toInt_eq_zero_iff (x : BitVec w) : x.toInt = 0 ↔ x = 0#w := by
  rw [← BitVec.toInt_inj, BitVec.toInt_zero]

/-- Truncating division, as it is written in terms of magnitudes. -/
theorem tdiv_eq_magnitude (a b : Int) :
    (if decide (a < 0) != decide (b < 0) then -((a.natAbs : Int) / b.natAbs)
      else (a.natAbs : Int) / b.natAbs) = a.tdiv b := by
  obtain ⟨n, rfl | rfl⟩ := Int.eq_nat_or_neg a <;> obtain ⟨k, rfl | rfl⟩ := Int.eq_nat_or_neg b
  · have hn : ¬(n : Int) < 0 := by omega
    have hk : ¬(k : Int) < 0 := by omega
    simp [hn, hk]
  · rcases Nat.eq_zero_or_pos k with rfl | hk
    · simp
    · have hn : ¬(n : Int) < 0 := by omega
      simp [hn, hk, Int.tdiv_neg]
  · rcases Nat.eq_zero_or_pos n with rfl | hn
    · simp
    · have hk : ¬(k : Int) < 0 := by omega
      simp [hn, hk, Int.neg_tdiv]
  · rcases Nat.eq_zero_or_pos n with rfl | hn
    · simp
    · rcases Nat.eq_zero_or_pos k with rfl | hk
      · simp
      · simp [hn, hk]

theorem tmod_eq_magnitude (a b : Int) :
    (if a < 0 then -((a.natAbs : Int) % b.natAbs) else (a.natAbs : Int) % b.natAbs) = a.tmod b := by
  have hmod : ∀ n k : Nat, (n : Int) % k = (n : Int).tmod k := fun n k =>
    (Int.tmod_eq_emod_of_nonneg (by omega)).symm
  obtain ⟨n, rfl | rfl⟩ := Int.eq_nat_or_neg a
  · have hn : ¬(n : Int) < 0 := by omega
    obtain ⟨k, rfl | rfl⟩ := Int.eq_nat_or_neg b <;> simp [hn, hmod]
  · rcases Nat.eq_zero_or_pos n with rfl | hn
    · simp
    · obtain ⟨k, rfl | rfl⟩ := Int.eq_nat_or_neg b <;> simp [hn, Int.neg_tmod, hmod]

theorem ofInt_div (hw : ShiftWidth w) (d s : Int) (signed : Bool) :
    BitVec.ofInt w (arith .DIV d s w signed) =
      Isa.binary .DIV signed (BitVec.ofInt w d) (BitVec.ofInt w s) := by
  have ha := emod_eq_toNat (w := w) d
  have hb := emod_eq_toNat (w := w) s
  obtain ⟨x, hx⟩ : ∃ x, x = BitVec.ofInt w d := ⟨_, rfl⟩
  obtain ⟨y, hy⟩ : ∃ y, y = BitVec.ofInt w s := ⟨_, rfl⟩
  rw [← hx] at ha
  rw [← hy] at hb
  rw [← hx, ← hy]
  cases signed with
  | false =>
      simp only [arith, Isa.binary, ha, hb, toNat_eq_zero_iff, Bool.false_eq_true, if_false]
      split
      · exact BitVec.ofInt_natCast w 0
      · rw [← Int.natCast_ediv, BitVec.ofInt_natCast]
        apply BitVec.eq_of_toNat_eq
        rw [BitVec.toNat_ofNat, BitVec.toNat_udiv,
          Nat.mod_eq_of_lt (lt_of_le_of_lt (Nat.div_le_self _ _) x.isLt)]
  | true =>
      simp only [arith, Isa.binary, ha, hb, signedOf_toNat hw.pos, toInt_eq_zero_iff, if_true]
      split
      · exact BitVec.ofInt_natCast w 0
      · rw [ofInt_emod, tdiv_eq_magnitude]
        apply BitVec.eq_of_toInt_eq
        rw [BitVec.toInt_ofInt, BitVec.toInt_sdiv]

theorem ofInt_mod (hw : ShiftWidth w) (d s : Int) (signed : Bool) :
    BitVec.ofInt w (arith .MOD d s w signed) =
      Isa.binary .MOD signed (BitVec.ofInt w d) (BitVec.ofInt w s) := by
  have ha := emod_eq_toNat (w := w) d
  have hb := emod_eq_toNat (w := w) s
  obtain ⟨x, hx⟩ : ∃ x, x = BitVec.ofInt w d := ⟨_, rfl⟩
  obtain ⟨y, hy⟩ : ∃ y, y = BitVec.ofInt w s := ⟨_, rfl⟩
  rw [← hx] at ha
  rw [← hy] at hb
  rw [← hx, ← hy]
  cases signed with
  | false =>
      simp only [arith, Isa.binary, ha, hb, toNat_eq_zero_iff, Bool.false_eq_true, if_false]
      split
      · rw [BitVec.ofInt_natCast, BitVec.ofNat_toNat, BitVec.setWidth_eq]
      · rw [← Int.natCast_emod, BitVec.ofInt_natCast]
        apply BitVec.eq_of_toNat_eq
        rw [BitVec.toNat_ofNat, BitVec.toNat_umod,
          Nat.mod_eq_of_lt (lt_of_le_of_lt (Nat.mod_le _ _) x.isLt)]
  | true =>
      simp only [arith, Isa.binary, ha, hb, signedOf_toNat hw.pos, toInt_eq_zero_iff, if_true]
      split
      · rw [BitVec.ofInt_natCast, BitVec.ofNat_toNat, BitVec.setWidth_eq]
      · rw [ofInt_emod, tmod_eq_magnitude]
        apply BitVec.eq_of_toInt_eq
        rw [BitVec.toInt_ofInt, BitVec.toInt_srem, ← BitVec.toInt_srem, BitVec.toInt_bmod_cancel]

theorem shiftWidth_32 : ShiftWidth 32 := ⟨by decide, by decide⟩

theorem shiftWidth_64 : ShiftWidth 64 := ⟨by decide, by decide⟩

end Width

/-- Folding a 64-bit operation. -/
theorem ofInt_arith_64 {op : AluOp} (hop : op.isBinary) (d s : Int) (signed : Bool) :
    BitVec.ofInt 64 (arith op d s 64 signed) =
      Isa.binary op signed (BitVec.ofInt 64 d) (BitVec.ofInt 64 s) := by
  have hplain : op ∈ [.ADD, .SUB, .MUL, .OR, .AND, .XOR] →
      BitVec.ofInt 64 (arithUnmasked op d s) =
        Isa.binary op signed (BitVec.ofInt 64 d) (BitVec.ofInt 64 s) :=
    fun h => ofInt_arithUnmasked h signed d s
  cases op with
  | NEG | MOV | END | code_e | code_f => cases hop
  | DIV => exact ofInt_div shiftWidth_64 d s signed
  | MOD => exact ofInt_mod shiftWidth_64 d s signed
  | LSH | RSH | ARSH => exact ofInt_shifts shiftWidth_64 (by simp) d s signed
  | ADD | SUB | MUL | OR | AND | XOR => exact hplain (by simp)

/-- Folding a 32-bit operation. -/
theorem ofInt_arith_32 {op : AluOp} (hop : op.isBinary) (d s : Int) (signed : Bool) :
    BitVec.ofInt 32 (arith op d s 32 signed) =
      Isa.binary op signed (BitVec.ofInt 32 d) (BitVec.ofInt 32 s) := by
  have hmasked : op ∈ [.ADD, .SUB, .MUL, .OR, .AND, .XOR] →
      BitVec.ofInt 32 (arithUnmasked op (d % 2 ^ 32) (s % 2 ^ 32) % 2 ^ 32) =
        Isa.binary op signed (BitVec.ofInt 32 d) (BitVec.ofInt 32 s) := fun h => by
    rw [ofInt_emod, ofInt_arithUnmasked h signed, ofInt_emod, ofInt_emod]
  cases op with
  | NEG | MOV | END | code_e | code_f => cases hop
  | DIV => exact ofInt_div shiftWidth_32 d s signed
  | MOD => exact ofInt_mod shiftWidth_32 d s signed
  | LSH | RSH | ARSH => exact ofInt_shifts shiftWidth_32 (by simp) d s signed
  | ADD | SUB | MUL | OR | AND | XOR => exact hmasked (by simp)

/-- A folded 32-bit result is an unsigned number of 32 bits. -/
theorem arith_32_range (op : AluOp) (d s : Int) (signed : Bool) :
    0 ≤ arith op d s 32 signed ∧ arith op d s 32 signed < 2 ^ 32 := by
  have hmod : ∀ n : Int, 0 ≤ n % 2 ^ 32 ∧ n % 2 ^ 32 < 2 ^ 32 := fun n =>
    ⟨Int.emod_nonneg n (by decide), Int.emod_lt_of_pos n (by decide)⟩
  have hdiv : ∀ n : Int, 0 ≤ n → 0 ≤ (d % 2 ^ 32) / n ∧ (d % 2 ^ 32) / n < 2 ^ 32 := fun n hn =>
    ⟨Int.ediv_nonneg (hmod d).1 hn, lt_of_le_of_lt (Int.ediv_le_self _ (hmod d).1) (hmod d).2⟩
  have hrem : s % 2 ^ 32 ≠ 0 → 0 ≤ (d % 2 ^ 32) % (s % 2 ^ 32) ∧
      (d % 2 ^ 32) % (s % 2 ^ 32) < 2 ^ 32 := fun hne =>
    ⟨Int.emod_nonneg _ hne,
      lt_trans (Int.emod_lt_of_pos _ (lt_of_le_of_ne (hmod s).1 hne.symm)) (hmod s).2⟩
  cases op with
  | ADD | SUB | MUL | OR | AND | XOR | LSH | ARSH | NEG | MOV | END | code_e | code_f =>
      exact hmod _
  | RSH => exact hdiv _ (Int.pow_nonneg (by decide))
  | DIV =>
      simp only [arith]
      split
      · split
        · exact ⟨le_rfl, by decide⟩
        · exact hmod _
      · split
        · exact ⟨le_rfl, by decide⟩
        · exact hdiv _ (hmod s).1
  | MOD =>
      simp only [arith]
      split
      · split
        · exact hmod d
        · exact hmod _
      · split
        · exact hmod d
        · rename_i hne
          exact hrem hne

end Hornet
