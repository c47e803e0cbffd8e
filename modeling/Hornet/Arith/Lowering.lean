import Hornet.Track.Encode
import Hornet.Bpf.Isa

/-!
Every ALU node is lowered at a width of its own, often below 64 bits. These
lemmas show that the width is invisible: the zero-extended result is the one of
the instruction set on the zero-extended operands.
-/

namespace Hornet

open Smt

variable (m : ZModel)

theorem toNat_resize (b : ZBv) (n : Nat) :
    ((resize b n).eval m).toNat = b.toNat m % 2 ^ n := by
  obtain ⟨w, t⟩ := b
  unfold resize
  split
  · rename_i h
    simp only at h
    subst h
    exact (Nat.mod_eq_of_lt (t.eval m).isLt).symm
  · split
    · simp
    · rename_i hne hlt
      simp only at hne hlt
      have hle : 2 ^ w ≤ 2 ^ n := Nat.pow_le_pow_right (by omega) (by omega)
      have hlt : (t.eval m).toNat < 2 ^ n := lt_of_lt_of_le (t.eval m).isLt hle
      simp [BitVec.toNat_append, Nat.mod_eq_of_lt hlt]

theorem eval_resize (b : ZBv) (n : Nat) :
    (resize b n).eval m = BitVec.ofNat n (b.toNat m) := by
  apply BitVec.eq_of_toNat_eq
  rw [toNat_resize, BitVec.toNat_ofNat]

@[simp] theorem eval_bvVal (v : Int) (n : Nat) : (bvVal v n).eval m = BitVec.ofInt n v := rfl

theorem toNat_lt_bitsUsed (b : ZBv) : b.toNat m < 2 ^ bitsUsed b := by
  unfold bitsUsed
  cases h : b.value? with
  | none => exact b.toNat_lt m
  | some v =>
      rw [Bv.toNat_of_value? h m]
      exact lt_of_lt_of_le (Nat.lt_size_self v)
        (Nat.pow_le_pow_right (by omega) (le_max_left _ _))

/-- The chosen width holds all needed bits, unless it is the full 64. -/
theorem alu64Width_cases (op : AluOp) (d s : ZBv) :
    alu64Width op d s = 64 ∨
      (8 ≤ alu64Width op d s ∧ alu64Width op d s < 64 ∧
        aluBits op d s ≤ alu64Width op d s) := by
  unfold alu64Width
  omega

theorem alu64Width_le (op : AluOp) (d s : ZBv) : alu64Width op d s ≤ 64 := by
  unfold alu64Width
  omega

/-- The codes of the two-operand instructions. -/
def AluOp.isBinary : AluOp → Bool
  | .NEG | .MOV | .END | .code_e | .code_f => false
  | _ => true

/-- Operands fit a width that holds the needed bits of both. -/
theorem toNat_lt_of_bits {b : ZBv} {w : Nat} (h : bitsUsed b ≤ w) : b.toNat m < 2 ^ w :=
  lt_of_lt_of_le (toNat_lt_bitsUsed m b) (Nat.pow_le_pow_right (by omega) h)

theorem toNat_lt_of_size {b : ZBv} {w : Nat} (h : b.size ≤ w) : b.toNat m < 2 ^ w :=
  lt_of_lt_of_le (b.toNat_lt m) (Nat.pow_le_pow_right (by omega) h)

theorem add_fits {d s : ZBv} {w : Nat} (h : max (bitsUsed d) (bitsUsed s) + 1 ≤ w) :
    d.toNat m < 2 ^ w ∧ s.toNat m < 2 ^ w ∧ d.toNat m + s.toNat m < 2 ^ w := by
  have hd := toNat_lt_of_bits m (b := d) (w := max (bitsUsed d) (bitsUsed s)) (le_max_left _ _)
  have hs := toNat_lt_of_bits m (b := s) (w := max (bitsUsed d) (bitsUsed s)) (le_max_right _ _)
  have hpow : 2 ^ (max (bitsUsed d) (bitsUsed s) + 1) ≤ 2 ^ w := Nat.pow_le_pow_right (by omega) h
  rw [Nat.pow_succ] at hpow
  omega

theorem mul_fits {d s : ZBv} {w : Nat} (h : bitsUsed d + bitsUsed s ≤ w) :
    d.toNat m < 2 ^ w ∧ s.toNat m < 2 ^ w ∧ d.toNat m * s.toNat m < 2 ^ w := by
  have hd := toNat_lt_bitsUsed m d
  have hs := toNat_lt_bitsUsed m s
  refine ⟨toNat_lt_of_bits m (by omega), toNat_lt_of_bits m (by omega), ?_⟩
  calc d.toNat m * s.toNat m < 2 ^ bitsUsed d * 2 ^ bitsUsed s :=
        Nat.mul_lt_mul'' hd hs
    _ = 2 ^ (bitsUsed d + bitsUsed s) := (Nat.pow_add ..).symm
    _ ≤ 2 ^ w := Nat.pow_le_pow_right (by omega) h

theorem shl_fits {d s : ZBv} {w v : Nat} (hv : s.value? = some v) (h : bitsUsed d + v ≤ w) :
    d.toNat m < 2 ^ w ∧ s.toNat m < 2 ^ w ∧ d.toNat m * 2 ^ s.toNat m < 2 ^ w := by
  have hd := toNat_lt_bitsUsed m d
  have hs : s.toNat m = v := Bv.toNat_of_value? hv m
  have hpow : v < 2 ^ v := Nat.lt_two_pow_self
  have hle : 2 ^ v ≤ 2 ^ w := Nat.pow_le_pow_right (by omega) (by omega)
  refine ⟨toNat_lt_of_bits m (by omega), by omega, ?_⟩
  rw [hs]
  calc d.toNat m * 2 ^ v < 2 ^ bitsUsed d * 2 ^ v :=
        Nat.mul_lt_mul_of_pos_right hd (Nat.two_pow_pos v)
    _ = 2 ^ (bitsUsed d + v) := (Nat.pow_add ..).symm
    _ ≤ 2 ^ w := Nat.pow_le_pow_right (by omega) h

/-- The width chosen for an operation whose result is no wider than its operands. -/
theorem operands_fit {op : AluOp} {d s : ZBv} (hbits : aluBits op d s = max d.size s.size)
    (hlt : alu64Width op d s < 64) :
    d.toNat m < 2 ^ alu64Width op d s ∧ s.toNat m < 2 ^ alu64Width op d s := by
  rcases alu64Width_cases op d s with h64 | ⟨-, -, hle⟩
  · omega
  · rw [hbits] at hle
    exact ⟨toNat_lt_of_size m (by omega), toNat_lt_of_size m (by omega)⟩

/-- The low bits of an operand are the amount of a shift. -/
theorem toNat_shiftAmount (size : AluSize) (src : ZBv) :
    (shiftAmount size src).toNat m = src.toNat m % (8 * size.bytes) := by
  unfold shiftAmount
  cases size <;> cases h : src.value? with
  | none => simp [toNat_resize, AluSize.bytes, Nat.mod_mod_of_dvd]
  | some v =>
      rw [Bv.toNat_of_value? h m]
      simp only [Bv.toNat_mk, eval_bvVal, AluSize.bytes]
      rw [BitVec.ofInt_natCast, BitVec.toNat_ofNat]
      omega

/-- A quotient that is zero when the divisor is, as the lowering writes it. -/
theorem eval_guardedQuotient {w : Nat} (s quot : ZTerm (.bv w)) :
    ∃ t, (match (⟨w, s⟩ : ZBv).value? with
        | some v => (pure ⟨w, if v = 0 then bvVal 0 w else quot⟩ : Except LowerError ZBv)
        | none => pure ⟨w, .ite (.cmp .eq s (bvVal 0 w)) (bvVal 0 w) quot⟩) = .ok ⟨w, t⟩ ∧
      t.eval m = if s.eval m = 0#w then 0#w else quot.eval m := by
  cases h : (⟨w, s⟩ : ZBv).value? with
  | some v =>
      have hv : (s.eval m).toNat = v := Bv.toNat_of_value? h m
      refine ⟨_, rfl, ?_⟩
      by_cases hz : v = 0
      · have hs : s.eval m = 0#w := BitVec.eq_of_toNat_eq (by simpa [hz] using hv)
        simp [hz, hs]
      · have hs : s.eval m ≠ 0#w := fun hs => hz (by simpa [hs] using hv.symm)
        simp [hz, hs]
  | none =>
      refine ⟨_, rfl, ?_⟩
      by_cases hs : s.eval m = 0#w <;> simp [CmpOp.eval, hs]

/-- What `opAt` computes: the operation of the instruction set at the width of the
operands, except that a shift amount is not reduced and that a narrowed `ARSH`
shifts in zeros. -/
def opValue {w : Nat} (op : AluOp) (signed : Bool) (size : AluSize) (d s : BitVec w) : BitVec w :=
  match op with
  | .LSH => d <<< s.toNat
  | .RSH => d >>> s.toNat
  | .ARSH => if w = size.bytes * 8 then d.sshiftRight s.toNat else d >>> s.toNat
  | op => Isa.binary op signed d s

theorem eval_opAt {op : AluOp} (hop : op.isBinary) (signed : Bool) (size : AluSize) {w : Nat}
    (d s : ZTerm (.bv w)) :
    ∃ t, opAt op signed size d s = .ok ⟨w, t⟩ ∧
      t.eval m = opValue op signed size (d.eval m) (s.eval m) := by
  cases op with
  | NEG | MOV | END | code_e | code_f => cases hop
  | ADD | SUB | MUL | OR | AND | XOR | LSH | RSH => exact ⟨_, rfl, rfl⟩
  | ARSH =>
      refine ⟨_, rfl, ?_⟩
      by_cases hw : w = size.bytes * 8 <;> simp [opValue, hw, BvOp.eval]
  | MOD =>
      refine ⟨_, rfl, ?_⟩
      by_cases hz : s.eval m = 0#w <;>
        cases signed <;> simp [opValue, Isa.binary, BvOp.eval, hz]
  | DIV =>
      obtain ⟨t, ht, heval⟩ := eval_guardedQuotient m s
        (.bin (if signed then .sdiv else .udiv) d s)
      refine ⟨t, ht, heval.trans ?_⟩
      by_cases hz : s.eval m = 0#w
      · simp [opValue, Isa.binary, hz]
      · have hneg : -s.eval m ≠ 0#w := fun h => hz (by simpa using h)
        cases signed with
        | false => simp [opValue, Isa.binary, BvOp.eval, BitVec.smtUDiv_eq, hz]
        | true =>
            simp only [opValue, Isa.binary, BvOp.eval, Term.eval_bin, if_true, if_neg hz,
              BitVec.smtSDiv_eq, BitVec.sdiv_eq, BitVec.smtUDiv_eq, BitVec.udiv_eq, if_neg hneg]

/-- The result of an operation fits `w` bits as an unsigned number. -/
def FitsAt (op : AluOp) (w d s : Nat) : Prop :=
  match op with
  | .ADD => d + s < 2 ^ w
  | .MUL => d * s < 2 ^ w
  | .LSH => d * 2 ^ s < 2 ^ w
  | .SUB => False
  | _ => True

/-- A value that fits fewer than 64 bits is not negative. -/
theorem sshiftRight_of_lt {n w k : Nat} (hw : w < 64) (h : n < 2 ^ w) :
    (BitVec.ofNat 64 n).sshiftRight k = BitVec.ofNat 64 n >>> k := by
  have hpow : 2 ^ w ≤ 2 ^ 63 := Nat.pow_le_pow_right (by omega) (by omega)
  have hmsb : (BitVec.ofNat 64 n).msb = false := by
    rw [BitVec.msb_eq_false_iff_two_mul_lt, BitVec.toNat_ofNat]
    omega
  exact BitVec.sshiftRight_eq_of_msb_false hmsb

theorem ofNat_eq_zero_iff {w n : Nat} (h : n < 2 ^ w) : BitVec.ofNat w n = 0#w ↔ n = 0 := by
  constructor
  · intro hz
    have := congrArg BitVec.toNat hz
    simpa [Nat.mod_eq_of_lt h] using this
  · rintro rfl
    rfl

/-- The narrow operation on operands that fit agrees with the 64-bit one. -/
theorem opValue_narrow {op : AluOp} (hop : op.isBinary) {w d s : Nat} (hw : w < 64)
    (hd : d < 2 ^ w) (hs : s < 2 ^ w) (hfit : FitsAt op w d s) :
    (opValue op false .b8 (BitVec.ofNat w d) (BitVec.ofNat w s)).toNat =
      (opValue op false .b8 (BitVec.ofNat 64 d) (BitVec.ofNat 64 s)).toNat := by
  have hle : 2 ^ w ≤ 2 ^ 64 := Nat.pow_le_pow_right (by omega) hw.le
  have hd64 : d % 2 ^ 64 = d := Nat.mod_eq_of_lt (by omega)
  have hs64 : s % 2 ^ 64 = s := Nat.mod_eq_of_lt (by omega)
  have hdw : d % 2 ^ w = d := Nat.mod_eq_of_lt hd
  have hsw : s % 2 ^ w = s := Nat.mod_eq_of_lt hs
  cases op with
  | NEG | MOV | END | code_e | code_f => cases hop
  | SUB => exact hfit.elim
  | ADD =>
      have hsum : d + s < 2 ^ 64 := lt_of_lt_of_le hfit hle
      simp only [opValue, Isa.binary, BitVec.toNat_add, BitVec.toNat_ofNat, hd64, hs64, hdw, hsw]
      rw [Nat.mod_eq_of_lt hfit, Nat.mod_eq_of_lt hsum]
  | MUL =>
      have hprod : d * s < 2 ^ 64 := lt_of_lt_of_le hfit hle
      simp only [opValue, Isa.binary, BitVec.toNat_mul, BitVec.toNat_ofNat, hd64, hs64, hdw, hsw]
      rw [Nat.mod_eq_of_lt hfit, Nat.mod_eq_of_lt hprod]
  | LSH =>
      have hshift : d * 2 ^ s < 2 ^ 64 := lt_of_lt_of_le hfit hle
      simp only [opValue, BitVec.toNat_shiftLeft, BitVec.toNat_ofNat, hd64, hs64, hdw, hsw,
        Nat.shiftLeft_eq]
      rw [Nat.mod_eq_of_lt hfit, Nat.mod_eq_of_lt hshift]
  | DIV =>
      have hwz := ofNat_eq_zero_iff hs
      have h64z : BitVec.ofNat 64 s = 0#64 ↔ s = 0 := ofNat_eq_zero_iff (lt_of_lt_of_le hs hle)
      by_cases hz : s = 0
      · simp only [opValue, Isa.binary, if_pos (hwz.mpr hz), if_pos (h64z.mpr hz)]
        rfl
      · simp only [opValue, Isa.binary, if_neg (mt hwz.mp hz), if_neg (mt h64z.mp hz),
          Bool.false_eq_true, if_false, BitVec.toNat_udiv, BitVec.toNat_ofNat, hdw, hsw, hd64, hs64]
  | MOD =>
      have hwz := ofNat_eq_zero_iff hs
      have h64z : BitVec.ofNat 64 s = 0#64 ↔ s = 0 := ofNat_eq_zero_iff (lt_of_lt_of_le hs hle)
      by_cases hz : s = 0
      · simp only [opValue, Isa.binary, if_pos (hwz.mpr hz), if_pos (h64z.mpr hz),
          BitVec.toNat_ofNat, hdw, hd64]
      · simp only [opValue, Isa.binary, if_neg (mt hwz.mp hz), if_neg (mt h64z.mp hz),
          Bool.false_eq_true, if_false, BitVec.toNat_umod, BitVec.toNat_ofNat, hdw, hsw, hd64, hs64]
  | AND => simp only [opValue, Isa.binary, BitVec.toNat_and, BitVec.toNat_ofNat, hd64, hs64, hdw, hsw]
  | OR => simp only [opValue, Isa.binary, BitVec.toNat_or, BitVec.toNat_ofNat, hd64, hs64, hdw, hsw]
  | XOR => simp only [opValue, Isa.binary, BitVec.toNat_xor, BitVec.toNat_ofNat, hd64, hs64, hdw, hsw]
  | RSH =>
      simp only [opValue, BitVec.toNat_ushiftRight, BitVec.toNat_ofNat, hd64, hs64, hdw, hsw]
  | ARSH =>
      simp only [opValue, AluSize.bytes, Nat.reduceMul, if_neg hw.ne, if_true,
        sshiftRight_of_lt hw hd, BitVec.toNat_ushiftRight, BitVec.toNat_ofNat, hd64, hs64, hdw, hsw]

/-- A width below 64 bits is chosen only when the operands and the result fit it. -/
theorem fits_alu64Width {op : AluOp} {d s : ZBv} (hlt : alu64Width op d s < 64) :
    d.toNat m < 2 ^ alu64Width op d s ∧ s.toNat m < 2 ^ alu64Width op d s ∧
      FitsAt op (alu64Width op d s) (d.toNat m) (s.toNat m) := by
  have hbits : aluBits op d s ≤ alu64Width op d s := by
    rcases alu64Width_cases op d s with h64 | ⟨-, -, hle⟩ <;> omega
  have hoperands : aluBits op d s = max d.size s.size →
      d.toNat m < 2 ^ alu64Width op d s ∧ s.toNat m < 2 ^ alu64Width op d s :=
    fun h => operands_fit m h hlt
  cases op with
  | ADD => exact add_fits m hbits
  | MUL => exact mul_fits m hbits
  | SUB => simp [alu64Width, aluBits] at hlt
  | LSH =>
      cases hv : s.value? with
      | none => simp [alu64Width, aluBits, hv] at hlt
      | some v =>
          simp only [aluBits, hv] at hbits
          exact shl_fits m hv hbits
  | _ => exact ⟨(hoperands rfl).1, (hoperands rfl).2, trivial⟩

/-- The amount of a shift is the one of the instruction set. -/
theorem opValue_opSource {op : AluOp} (signed : Bool) (size : AluSize) {w : Nat}
    (hw : w = size.bytes * 8) (d : BitVec w) (s : ZBv) :
    opValue op signed size d (BitVec.ofNat w ((opSource op size s).toNat m)) =
      Isa.binary op signed d (BitVec.ofNat w (s.toNat m)) := by
  have hamount : ∀ n, (BitVec.ofNat w (n % (8 * size.bytes))).toNat =
      (BitVec.ofNat w n).toNat % w := by
    intro n
    subst hw
    cases size <;> simp only [AluSize.bytes, BitVec.toNat_ofNat] <;> omega
  unfold opSource
  cases op <;> simp [opValue, Isa.binary, toNat_shiftAmount, hw, hamount]

/-- A 64-bit operation, at whatever width it is lowered, has the value of the
instruction set. -/
theorem aluBinary_b8 {op : AluOp} (hop : op.isBinary) (offset : Int) (d s : ZBv) :
    ∃ t, aluBinary op offset .b8 d s = .ok t ∧ t.size ≤ 64 ∧
      t.toNat m = (Isa.binary op (offset = 1 && (op = .DIV || op = .MOD))
        (BitVec.ofNat 64 (d.toNat m)) (BitVec.ofNat 64 (s.toNat m))).toNat := by
  obtain ⟨signed, hsigned⟩ : ∃ signed : Bool, signed = (offset = 1 && (op = .DIV || op = .MOD)) :=
    ⟨_, rfl⟩
  obtain ⟨w, hw⟩ : ∃ w, w = opWidth op signed .b8 d (opSource op .b8 s) := ⟨_, rfl⟩
  obtain ⟨t, ht, heval⟩ := eval_opAt m hop signed .b8 (resize d w) (resize (opSource op .b8 s) w)
  have hlower : aluBinary op offset .b8 d s = .ok ⟨w, t⟩ := by
    rw [← ht, hw, hsigned]
    rfl
  have hle : w ≤ 64 := by
    rw [hw, opWidth]
    split
    · exact le_rfl
    · exact alu64Width_le op d (opSource op .b8 s)
  have hvalue : (opValue op signed .b8 (BitVec.ofNat w (d.toNat m))
      (BitVec.ofNat w ((opSource op .b8 s).toNat m))).toNat =
        (opValue op signed .b8 (BitVec.ofNat 64 (d.toNat m))
          (BitVec.ofNat 64 ((opSource op .b8 s).toNat m))).toNat := by
    by_cases h64 : w = 64
    · rw [h64]
    · have hunsigned : signed = false := by
        cases signed with
        | false => rfl
        | true => exact absurd hw h64
      have hwidth : w = alu64Width op d (opSource op .b8 s) := by
        rw [hw, hunsigned]
        rfl
      have hlt : w < 64 := by omega
      obtain ⟨hd, hs, hfit⟩ := fits_alu64Width m (hwidth ▸ hlt)
      rw [← hwidth] at hd hs hfit
      rw [hunsigned]
      exact opValue_narrow hop hlt hd hs hfit
  refine ⟨⟨w, t⟩, hlower, hle, ?_⟩
  rw [Bv.toNat_mk, heval, eval_resize, eval_resize, hvalue, ← hsigned]
  exact congrArg BitVec.toNat (opValue_opSource m signed .b8 rfl _ s)

/-- So has a 32-bit operation. -/
theorem aluBinary_b4 {op : AluOp} (hop : op.isBinary) (offset : Int) (d s : ZBv) :
    ∃ t, aluBinary op offset .b4 d s = .ok t ∧ t.size = 32 ∧
      t.toNat m = (Isa.binary op (offset = 1 && (op = .DIV || op = .MOD))
        (BitVec.ofNat 32 (d.toNat m)) (BitVec.ofNat 32 (s.toNat m))).toNat := by
  obtain ⟨t, ht, heval⟩ := eval_opAt m hop (offset = 1 && (op = .DIV || op = .MOD)) .b4
    (resize d 32) (resize (opSource op .b4 s) 32)
  refine ⟨⟨32, t⟩, ht, rfl, ?_⟩
  rw [Bv.toNat_mk, heval, eval_resize, eval_resize]
  exact congrArg BitVec.toNat (opValue_opSource m _ .b4 rfl _ s)

end Hornet
