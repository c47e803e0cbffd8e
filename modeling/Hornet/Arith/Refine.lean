import Hornet.Arith.Cells
import Hornet.Arith.Folding
import Hornet.Track.Alu

/-!
The tracked ALU instructions compute what the instruction set says. A register's
value denotes a 64-bit number when its term, zero-extended, is that number; one
instruction keeps this for every register, and so does a sequence of them.
-/

namespace Hornet

open Smt

section Denotes

variable {maps : List MapInfo} (R : Option (Reads maps)) (blk : Option Nat) (st : Z3State maps)
  (m : ZModel)

/-- A value that an operation of width `w` reads as `x`. -/
structure Operand (w : Nat) (e : Expr) (x : BitVec w) : Prop where
  lowers : ∃ t, exprToZ3 R blk st e = .ok t ∧ BitVec.ofNat w (t.toNat m) = x
  num : ∀ n, e.num? = some n → BitVec.ofInt w n = x

/-- A value whose term is the number `v`, which fits the declared size. -/
structure Denotes (e : Expr) (v : BitVec 64) : Prop where
  lowers : ∃ t, exprToZ3 R blk st e = .ok t ∧ t.toNat m = v.toNat
  size : v.toNat < 2 ^ (8 * e.size)
  num : ∀ n, e.num? = some n → BitVec.ofInt 64 n = v

variable {R blk st m}

theorem Denotes.operand64 {e : Expr} {v : BitVec 64} (h : Denotes R blk st m e v) :
    Operand R blk st m 64 e v := by
  obtain ⟨t, ht, hval⟩ := h.lowers
  refine ⟨⟨t, ht, ?_⟩, h.num⟩
  rw [hval, BitVec.ofNat_toNat, BitVec.setWidth_eq]

theorem ofInt_setWidth_32 (n : Int) :
    (BitVec.ofInt 64 n).setWidth 32 = BitVec.ofInt 32 n := by
  apply BitVec.eq_of_toNat_eq
  rw [BitVec.toNat_setWidth, BitVec.toNat_ofInt, BitVec.toNat_ofInt]
  omega

theorem Denotes.operand32 {e : Expr} {v : BitVec 64} (h : Denotes R blk st m e v) :
    Operand R blk st m 32 e (v.setWidth 32) := by
  obtain ⟨t, ht, hval⟩ := h.lowers
  refine ⟨⟨t, ht, ?_⟩, fun n hn => ?_⟩
  · rw [hval, BitVec.ofNat_toNat]
  · rw [← h.num n hn, ofInt_setWidth_32]

/-- A constant as an operand of any width up to its own. -/
theorem operand_num {w size : Nat} (hw : w ≤ size * 8) (n idx : Int) :
    Operand R blk st m w (.num n size idx) (BitVec.ofInt w n) := by
  refine ⟨⟨⟨size * 8, bvVal n (size * 8)⟩, rfl, ?_⟩, fun k hk => ?_⟩
  · apply BitVec.eq_of_toNat_eq
    have hdvd : (2 : Int) ^ w ∣ 2 ^ (size * 8) := pow_dvd_pow 2 hw
    have hmod := Int.emod_emod_of_dvd n hdvd
    rw [emod_eq_toNat (w := size * 8) n, emod_eq_toNat (w := w) n] at hmod
    simp only [BitVec.toNat_ofNat, Bv.toNat_mk, eval_bvVal]
    have hcast : ((2 ^ w : Nat) : Int) = 2 ^ w := by push_cast; rfl
    rw [← hcast] at hmod
    exact_mod_cast hmod
  · obtain rfl := Option.some.inj hk
    rfl

/-- A constant of eight bytes denotes its value modulo `2 ^ 64`. -/
theorem denotes_num_8 (n idx : Int) :
    Denotes R blk st m (.num n 8 idx) (BitVec.ofInt 64 n) := by
  refine ⟨⟨⟨8 * 8, bvVal n (8 * 8)⟩, rfl, rfl⟩, (BitVec.ofInt 64 n).isLt, fun k hk => ?_⟩
  obtain rfl := Option.some.inj hk
  rfl

/-- A smaller constant denotes its value when that fits its size. -/
theorem denotes_num {n : Int} {size : Nat} (hsize : size ≤ 8) (hn : 0 ≤ n) (hlt : n < 2 ^ (8 * size))
    (idx : Int) : Denotes R blk st m (.num n size idx) (BitVec.ofInt 64 n) := by
  have hpow : (2 : Int) ^ (8 * size) ≤ 2 ^ 64 := by
    exact_mod_cast Nat.pow_le_pow_right (n := 2) (by omega) (show 8 * size ≤ 64 by omega)
  have hval : (BitVec.ofInt 64 n).toNat = n.toNat := by
    have := emod_eq_toNat (w := 64) n
    rw [Int.emod_eq_of_lt hn (lt_of_lt_of_le hlt hpow)] at this
    omega
  refine ⟨⟨⟨size * 8, bvVal n (size * 8)⟩, rfl, ?_⟩, ?_, fun k hk => ?_⟩
  · have := emod_eq_toNat (w := size * 8) n
    rw [Nat.mul_comm size 8] at *
    rw [Int.emod_eq_of_lt hn hlt] at this
    simp only [Bv.toNat_mk, eval_bvVal, hval]
    omega
  · rw [hval]
    have : ((n.toNat : Nat) : Int) < ((2 ^ (8 * size) : Nat) : Int) := by
      push_cast
      omega
    exact_mod_cast this
  · obtain rfl := Option.some.inj hk
    rfl

theorem denotes_imm64 {imm : Int} (hlo : -2 ^ 31 ≤ imm) (hhi : imm < 2 ^ 31) :
    Denotes R blk st m (imm64 imm) (BitVec.ofInt 64 imm) := by
  unfold imm64
  split
  · exact denotes_num (by decide) (by assumption) (by omega) (-1)
  · exact denotes_num_8 imm (-1)

theorem toNat_setWidth_setWidth (x : BitVec 32) : (x.setWidth 64).toNat = x.toNat := by
  rw [BitVec.toNat_setWidth, Nat.mod_eq_of_lt (lt_trans x.isLt (by decide))]

/-- A folded 32-bit result. -/
theorem denotes_num_32 {n : Int} (hn : 0 ≤ n) (hlt : n < 2 ^ 32) {x : BitVec 32}
    (hx : BitVec.ofInt 32 n = x) (idx : Int) :
    Denotes R blk st m (.num n 4 idx) (x.setWidth 64) := by
  have hval : BitVec.ofInt 64 n = x.setWidth 64 := by
    apply BitVec.eq_of_toNat_eq
    rw [toNat_setWidth_setWidth, ← hx, BitVec.toNat_ofInt, BitVec.toNat_ofInt]
    omega
  rw [← hval]
  exact denotes_num (by decide) hn (by omega) idx

theorem exprToZ3_binary {op : AluOp} {d s : Expr} {td ts : ZBv}
    (hd : exprToZ3 R blk st d = .ok td) (hs : exprToZ3 R blk st s = .ok ts) (offset : Int)
    (size : AluSize) (idx : Int) :
    exprToZ3 R blk st (.binary op (some d) (some s) offset size idx) =
      aluBinary op offset size td ts := by
  rw [exprToZ3, someToZ3, someToZ3, hd, hs]
  rfl

theorem exprToZ3_unary {op : AluOp} {d : Expr} {td : ZBv} (hd : exprToZ3 R blk st d = .ok td)
    (opcodeS : OpSrc) (imm : Int) (size : Nat) (alu64 : Bool) :
    exprToZ3 R blk st (.unary op (some d) opcodeS imm size alu64) =
      aluUnary op opcodeS imm size alu64 td := by
  rw [exprToZ3, someToZ3, hd]
  rfl

/-- Whether an operation is signed, as the lowering and the folding decide it. -/
def isSigned (op : AluOp) (offset : Int) : Bool := offset = 1 && (op = .DIV || op = .MOD)

theorem denotes_binary_b8 {op : AluOp} (hop : op.isBinary) {d s : Expr} {x y : BitVec 64}
    (hd : Operand R blk st m 64 d x) (hs : Operand R blk st m 64 s y) (offset idx : Int) :
    Denotes R blk st m (.binary op (some d) (some s) offset .b8 idx)
      (Isa.binary op (isSigned op offset) x y) := by
  obtain ⟨td, htd, hx⟩ := hd.lowers
  obtain ⟨ts, hts, hy⟩ := hs.lowers
  obtain ⟨t, ht, -, hval⟩ := aluBinary_b8 m hop offset td ts
  refine ⟨⟨t, ?_, ?_⟩, BitVec.isLt _, fun n hn => ?_⟩
  · rw [exprToZ3_binary htd hts, ht]
  · rw [hval, hx, hy]
    rfl
  · cases hn

theorem denotes_binary_b4 {op : AluOp} (hop : op.isBinary) {d s : Expr} {x y : BitVec 32}
    (hd : Operand R blk st m 32 d x) (hs : Operand R blk st m 32 s y) (offset idx : Int) :
    Denotes R blk st m (.binary op (some d) (some s) offset .b4 idx)
      ((Isa.binary op (isSigned op offset) x y).setWidth 64) := by
  obtain ⟨td, htd, hx⟩ := hd.lowers
  obtain ⟨ts, hts, hy⟩ := hs.lowers
  obtain ⟨t, ht, -, hval⟩ := aluBinary_b4 m hop offset td ts
  refine ⟨⟨t, ?_, ?_⟩, ?_, fun n hn => ?_⟩
  · rw [exprToZ3_binary htd hts, ht]
  · rw [toNat_setWidth_setWidth, hval, hx, hy]
    rfl
  · rw [toNat_setWidth_setWidth]
    exact BitVec.isLt _
  · cases hn

/-- Truncation to 32 bits. -/
theorem denotes_trunc32 {e : Expr} {v : BitVec 64} (h : Denotes R blk st m e v) (idx : Int) :
    ∃ e', trunc32 (some e) idx = some e' ∧
      Denotes R blk st m e' ((v.setWidth 32).setWidth 64) := by
  have hsmall : e.size ≤ 4 → (v.setWidth 32).setWidth 64 = v := by
    intro hsize
    have hpow : 2 ^ (8 * e.size) ≤ 2 ^ 32 := Nat.pow_le_pow_right (by omega) (by omega)
    apply BitVec.eq_of_toNat_eq
    rw [toNat_setWidth_setWidth, BitVec.toNat_setWidth,
      Nat.mod_eq_of_lt (lt_of_lt_of_le h.size hpow)]
  have hmask : Denotes R blk st m
      (.binary .AND (some e) (some (.num 0xFFFFFFFF 4 (-1))) 0 .b4 idx)
      ((v.setWidth 32).setWidth 64) := by
    have hones32 : Operand R blk st m 32 (.num 0xFFFFFFFF 4 (-1)) (BitVec.ofInt 32 0xFFFFFFFF) :=
      operand_num (by decide) 0xFFFFFFFF (-1)
    have hand := @denotes_binary_b4 _ R blk st m .AND rfl _ _ _ _ h.operand32 hones32 0 idx
    have hones : BitVec.ofInt 32 0xFFFFFFFF = BitVec.allOnes 32 := by decide
    simpa only [Isa.binary, hones, BitVec.and_allOnes] using hand
  cases e with
  | ptr p =>
      obtain ⟨t, ht, -⟩ := h.lowers
      rw [exprToZ3] at ht
      cases ht
  | num n size i =>
      refine ⟨_, rfl, ?_⟩
      have hn : BitVec.ofInt 32 n = v.setWidth 32 := by
        rw [← h.num n rfl, ofInt_setWidth_32]
      exact denotes_num_32 (Int.emod_nonneg n (by decide)) (Int.emod_lt_of_pos n (by decide))
        ((ofInt_emod 32 n).trans hn) idx
  | _ =>
      simp only [trunc32]
      split
      · rename_i hsize
        exact ⟨_, rfl, (hsmall hsize).symm ▸ h⟩
      · exact ⟨_, rfl, hmask⟩

/-- A negation. -/
theorem denotes_neg {d : Expr} {v : BitVec 64} (hd : Denotes R blk st m d v) (opcodeS : OpSrc)
    (imm : Int) (size : AluSize) (alu64 : Bool) :
    Denotes R blk st m (.unary .NEG (some d) opcodeS imm size.bytes alu64)
      (match size with
        | .b8 => -v
        | .b4 => (-(v.setWidth 32)).setWidth 64) := by
  obtain ⟨t, ht, hval⟩ := hd.lowers
  have hlow := @exprToZ3_unary _ R blk st .NEG _ _ ht opcodeS imm size.bytes alu64
  cases size with
  | b8 =>
      refine ⟨⟨_, hlow, ?_⟩, BitVec.isLt _, fun n hn => ?_⟩
      · change (-(resize t 64).eval m).toNat = (-v).toNat
        rw [eval_resize, hval, BitVec.ofNat_toNat, BitVec.setWidth_eq]
      · cases hn
  | b4 =>
      refine ⟨⟨_, hlow, ?_⟩, ?_, fun n hn => ?_⟩
      · change (-(resize t 32).eval m).toNat = _
        rw [toNat_setWidth_setWidth, eval_resize, hval, BitVec.ofNat_toNat]
      · rw [toNat_setWidth_setWidth]
        exact BitVec.isLt _
      · cases hn

/-- The extraction of low bits from a 64-bit term. -/
theorem eval_low (t : ZBv) {v : BitVec 64} (hval : t.toNat m = v.toNat) (bits : Nat) :
    (Term.extract 0 bits (resize t 64)).eval m = v.setWidth bits := by
  rw [Term.eval_extract, eval_resize, hval, BitVec.ofNat_toNat, BitVec.setWidth_eq]
  apply BitVec.eq_of_toNat_eq
  rw [BitVec.extractLsb'_toNat, Nat.shiftRight_zero, BitVec.toNat_setWidth]

theorem ofInt_setWidth {w : Nat} (hw : w ≤ 64) (n : Int) :
    (BitVec.ofInt 64 n).setWidth w = BitVec.ofInt w n := by
  have hdvd : (2 : Int) ^ w ∣ 2 ^ 64 := pow_dvd_pow 2 hw
  have hmod := Int.emod_emod_of_dvd n hdvd
  rw [emod_eq_toNat (w := 64) n, emod_eq_toNat (w := w) n] at hmod
  have hcast : ((2 ^ w : Nat) : Int) = 2 ^ w := by push_cast; rfl
  rw [← hcast] at hmod
  apply BitVec.eq_of_toNat_eq
  rw [BitVec.toNat_setWidth]
  exact_mod_cast hmod

/-- The sign extension of a constant. -/
theorem signedOf_emod {bits : Nat} (hpos : 0 < bits) (hle : bits ≤ 64) {n : Int} {v : BitVec 64}
    (hn : BitVec.ofInt 64 n = v) : signedOf bits (n % 2 ^ bits) = (v.setWidth bits).toInt := by
  rw [← hn, ofInt_setWidth hle, emod_eq_toNat (w := bits) n, signedOf_toNat hpos]

/-- A sign-extending move. -/
theorem denotes_sext {d : Expr} {v : BitVec 64} (hd : Denotes R blk st m d v) {bits : Nat}
    (hpos : 0 < bits) (hle : bits ≤ 64) (size : AluSize) (idx : Int) :
    ∃ e, sext (some d) bits size.bytes idx = .ok (some e) ∧
      Denotes R blk st m e
        (match size with
          | .b8 => (v.setWidth bits).signExtend 64
          | .b4 => ((v.setWidth bits).signExtend 32).setWidth 64) := by
  obtain ⟨t, ht, hval⟩ := hd.lowers
  have hunary : d.num? = none → Denotes R blk st m
      (.unary .MOV (some d) .imm bits size.bytes (size.bytes = 8))
      (match size with
        | .b8 => (v.setWidth bits).signExtend 64
        | .b4 => ((v.setWidth bits).signExtend 32).setWidth 64) := by
    intro _
    have hlow := @exprToZ3_unary _ R blk st .MOV _ _ ht .imm bits size.bytes (size.bytes = 8)
    cases size with
    | b8 =>
        refine ⟨⟨_, hlow, ?_⟩, BitVec.isLt _, fun n hn => ?_⟩
        · change (((Term.extract 0 bits (resize t 64)).eval m).signExtend 64).toNat = _
          rw [eval_low t hval]
        · cases hn
    | b4 =>
        refine ⟨⟨_, hlow, ?_⟩, ?_, fun n hn => ?_⟩
        · change (((Term.extract 0 bits (resize t 64)).eval m).signExtend 32).toNat = _
          rw [eval_low t hval, toNat_setWidth_setWidth]
        · rw [toNat_setWidth_setWidth]
          exact BitVec.isLt _
        · cases hn
  cases d with
  | ptr p =>
      rw [exprToZ3] at ht
      cases ht
  | num n sz i =>
      have hsigned := signedOf_emod hpos hle (hd.num n rfl)
      cases size with
      | b8 =>
          refine ⟨_, rfl, ?_⟩
          rw [Int.toNat_natCast, hsigned]
          exact denotes_num_8 _ idx
      | b4 =>
          refine ⟨_, rfl, ?_⟩
          rw [Int.toNat_natCast, hsigned]
          exact denotes_num_32 (Int.emod_nonneg _ (by decide)) (Int.emod_lt_of_pos _ (by decide))
            (ofInt_emod 32 _) idx
  | _ => exact ⟨_, rfl, hunary rfl⟩

theorem aluUnary_end (opcodeS : OpSrc) {imm : Int} {n : Nat} (size : Nat) (alu64 : Bool) (d : ZBv)
    (hbits : (if imm = 16 || imm = 32 || imm = 64 then imm.toNat else 64) = 8 * n) :
    aluUnary .END opcodeS imm size alu64 d =
      if alu64 || opcodeS = .reg then
        concatCells (((List.range n).map fun i =>
          (⟨8, .extract (8 * i) 8 (.extract 0 (8 * n) (resize d 64))⟩ : ZBv)).reverse)
      else .ok ⟨8 * n, .extract 0 (8 * n) (resize d 64)⟩ := by
  have hdiv : 8 * n / 8 = n := by omega
  unfold aluUnary
  simp only
  generalize (if imm = 16 || imm = 32 || imm = 64 then imm.toNat else 64) = bits at hbits ⊢
  subst hbits
  rw [hdiv]
  rfl

/-- A byte swap or a truncation to a number of bytes. -/
theorem denotes_end {d : Expr} {v : BitVec 64} (hd : Denotes R blk st m d v) {imm : Int}
    (himm : imm = 16 ∨ imm = 32 ∨ imm = 64) (opcodeS : OpSrc) (alu64 : Bool) :
    Denotes R blk st m (.unary .END (some d) opcodeS imm (imm / 8).toNat alu64)
      (if alu64 || opcodeS = .reg then Isa.byteSwap (imm.toNat / 8) v
        else Isa.low (8 * (imm.toNat / 8)) v) := by
  obtain ⟨t, ht, hval⟩ := hd.lowers
  have hlower := @exprToZ3_unary _ R blk st .END _ _ ht opcodeS imm (imm / 8).toNat alu64
  obtain ⟨n, hpos, hle, hn⟩ : ∃ n : Nat, 0 < n ∧ n ≤ 8 ∧ imm.toNat = 8 * n := by
    rcases himm with rfl | rfl | rfl
    · exact ⟨2, by decide⟩
    · exact ⟨4, by decide⟩
    · exact ⟨8, by decide⟩
  have hsize : (imm / 8).toNat = n := by omega
  have hbytes : imm.toNat / 8 = n := by omega
  have hwidth : (if imm = 16 || imm = 32 || imm = 64 then imm.toNat else 64) = 8 * n := by
    rcases himm with rfl | rfl | rfl <;> exact hn
  have hpow : (256 : Nat) ^ n = 2 ^ (8 * n) := by rw [Nat.pow_mul]
  rw [hbytes, hsize]
  rw [hsize] at hlower
  rw [aluUnary_end opcodeS n alu64 t hwidth] at hlower
  by_cases hswap : (alu64 || opcodeS = .reg) = true
  · obtain ⟨u, hu, huval⟩ := toNat_swappedCells m (Term.extract 0 (8 * n) (resize t 64)) hpos
    rw [eval_low t hval, BitVec.toNat_setWidth, ← hpow, swapNat_mod,
      ← toNat_byteSwap hle] at huval
    rw [if_pos hswap, hu] at hlower
    rw [if_pos hswap]
    refine ⟨⟨u, hlower, huval⟩, ?_, fun k hk => ?_⟩
    · rw [toNat_byteSwap hle]
      exact lt_of_lt_of_eq (swapNat_lt n _) hpow
    · cases hk
  · rw [if_neg hswap] at hlower ⊢
    have hlow : (Isa.low (8 * n) v).toNat = (v.setWidth (8 * n)).toNat := by
      have hfit : 2 ^ (8 * n) ≤ 2 ^ 64 := Nat.pow_le_pow_right (by decide) (by omega)
      rw [Isa.low, BitVec.toNat_setWidth, Nat.mod_eq_of_lt (lt_of_lt_of_le (BitVec.isLt _) hfit)]
    refine ⟨⟨_, hlower, ?_⟩, ?_, fun k hk => ?_⟩
    · rw [Bv.toNat_mk, eval_low t hval, hlow]
    · rw [hlow]
      exact BitVec.isLt _
    · cases hk

theorem trunc32_self {e : Expr} (h : e.isPTR || (e.num?.isNone && e.size ≤ 4)) (idx : Int) :
    trunc32 (some e) idx = some e := by
  cases e with
  | ptr p => rfl
  | num n size i => simp [Expr.isPTR, Expr.num?] at h
  | _ =>
      simp only [Expr.isPTR, Expr.num?, Option.isNone_none, Bool.false_or, Bool.true_and,
        decide_eq_true_eq] at h
      simp only [trunc32, if_pos h]

theorem truncObj_denotes {o : Obj} {v : BitVec 64} (h : Denotes R blk st m o.val v) (idx : Nat) :
    ∃ o', truncObj idx (some o) = some o' ∧
      Denotes R blk st m o'.val ((v.setWidth 32).setWidth 64) := by
  obtain ⟨e, he, hden⟩ := denotes_trunc32 h idx
  by_cases hself : (o.val.isPTR || (o.val.num?.isNone && o.val.size ≤ 4)) = true
  · obtain rfl := Option.some.inj ((trunc32_self hself idx).symm.trans he)
    exact ⟨o, by simp only [truncObj, Option.bind_some, if_pos hself], hden⟩
  · refine ⟨.fresh idx e, ?_, hden⟩
    simp only [truncObj, Option.bind_some, if_neg hself, he, Option.map_some]

theorem exprAluKeepsDst_iff {d s : Expr} {code : AluOp} :
    exprAluKeepsDst (some d) (some s) code = true ↔
      d.num? = none ∧ (code = .ADD ∨ code = .SUB) ∧ s.num? = some 0 := by
  unfold exprAluKeepsDst
  cases hd : d.num? with
  | none => simp [hd]
  | some a =>
      cases hs : s.num? with
      | none => simp [hd, hs]
      | some b => simp [hd, hs]

theorem exprAlu_not_keeps {d s : Expr} {code : AluOp} (size : AluSize) (idx offset : Int)
    (h : exprAluKeepsDst (some d) (some s) code = false) :
    (∃ a b, d.num? = some a ∧ s.num? = some b ∧
      exprAlu (some d) (some s) code size idx offset = some (match size with
        | .b4 => .num (arith code a b 32 (isSigned code offset)) 4 idx
        | .b8 => .num (arith code a b 64 (isSigned code offset)) 8 idx)) ∨
    exprAlu (some d) (some s) code size idx offset =
      some (.binary code (some d) (some s) offset size idx) := by
  by_cases hnum : ∃ a b, d.num? = some a ∧ s.num? = some b
  · obtain ⟨a, b, hd, hs⟩ := hnum
    refine .inl ⟨a, b, hd, hs, ?_⟩
    cases d <;> simp only [Expr.num?, Option.some.injEq, reduceCtorEq] at hd
    cases s <;> simp only [Expr.num?, Option.some.injEq, reduceCtorEq] at hs
    subst hd hs
    cases size <;> rfl
  · refine .inr ?_
    have hzero : ¬((code = .ADD ∨ code = .SUB) ∧ s.num? = some 0) := by
      rintro ⟨hcode, hs⟩
      have hd : d.num? = none := by
        cases hd : d.num? with
        | none => rfl
        | some a => exact absurd ⟨a, 0, hd, hs⟩ hnum
      rw [exprAluKeepsDst_iff.mpr ⟨hd, hcode, hs⟩] at h
      cases h
    unfold exprAlu
    split
    · rename_i hd hs
      obtain rfl := Option.some.inj hd
      obtain rfl := Option.some.inj hs
      exact absurd ⟨_, _, rfl, rfl⟩ hnum
    · rw [if_neg]
      simpa using hzero

/-- Adding or subtracting zero. -/
theorem binary_zero {w : Nat} {code : AluOp} (h : code = .ADD ∨ code = .SUB) (signed : Bool)
    (x : BitVec w) : Isa.binary code signed x (BitVec.ofInt w 0) = x := by
  rcases h with rfl | rfl <;> simp [Isa.binary]

theorem aluObj_denotes_b8 {code : AluOp} (hop : code.isBinary) {o q : Obj} {x y : BitVec 64}
    (hd : Denotes R blk st m o.val x) (hs : Operand R blk st m 64 q.val y) (idx : Nat)
    (offset : Int) :
    ∃ o', aluObj (some o) (some q) code .b8 idx offset = some o' ∧
      Denotes R blk st m o'.val (Isa.binary code (isSigned code offset) x y) := by
  unfold aluObj
  simp only [Option.map_some]
  cases hkeep : exprAluKeepsDst (some o.val) (some q.val) code with
  | true =>
      obtain ⟨-, hcode, hzero⟩ := exprAluKeepsDst_iff.mp hkeep
      refine ⟨o, rfl, ?_⟩
      rw [← hs.num 0 hzero, binary_zero hcode]
      exact hd
  | false =>
      rcases exprAlu_not_keeps .b8 idx offset hkeep with ⟨a, b, ha, hb, he⟩ | he
      · refine ⟨_, by rw [he]; rfl, ?_⟩
        rw [← hd.num a ha, ← hs.num b hb, ← ofInt_arith_64 hop]
        exact denotes_num_8 _ idx
      · exact ⟨_, by rw [he]; rfl, denotes_binary_b8 hop hd.operand64 hs offset idx⟩

theorem isSigned_offset (code : AluOp) (offset : Int) :
    isSigned code (if code = .DIV || code = .MOD then offset else 0) = isSigned code offset := by
  cases code <;> simp [isSigned]

/-- A two-operand instruction on 64 bits. -/
theorem binaryAlu_denotes_b8 {i : Instr} (hop : i.aluCode.isBinary) {o q : Obj} {x y : BitVec 64}
    (hd : Denotes R blk st m o.val x) (hs : Operand R blk st m 64 q.val y) (idx : Nat) :
    ∃ o', binaryAlu idx i .b8 (some o) (some q) = some o' ∧
      Denotes R blk st m o'.val (Isa.binary i.aluCode (isSigned i.aluCode i.offset) x y) := by
  obtain ⟨o', ho', hden⟩ := aluObj_denotes_b8 hop hd hs idx
    (if i.aluCode = .DIV || i.aluCode = .MOD then i.offset else 0)
  rw [isSigned_offset] at hden
  exact ⟨o', ho', hden⟩

/-- A two-operand instruction on 32 bits. -/
theorem binaryAlu_denotes_b4 {i : Instr} (hop : i.aluCode.isBinary) {o q : Obj} {x : BitVec 64}
    {y : BitVec 32} (hd : Denotes R blk st m o.val x) (hs : Operand R blk st m 32 q.val y)
    (idx : Nat) :
    ∃ o', binaryAlu idx i .b4 (some o) (some q) = some o' ∧
      Denotes R blk st m o'.val
        ((Isa.binary i.aluCode (isSigned i.aluCode i.offset) (x.setWidth 32) y).setWidth 64) := by
  unfold binaryAlu aluObj
  simp only [Option.map_some]
  cases hkeep : exprAluKeepsDst (some o.val) (some q.val) i.aluCode with
  | true =>
      obtain ⟨-, hcode, hzero⟩ := exprAluKeepsDst_iff.mp hkeep
      rw [← hs.num 0 hzero, binary_zero hcode]
      exact truncObj_denotes hd idx
  | false =>
      have hsigned := isSigned_offset i.aluCode i.offset
      rcases exprAlu_not_keeps .b4 idx
        (if i.aluCode = .DIV || i.aluCode = .MOD then i.offset else 0) hkeep with
        ⟨a, b, ha, hb, he⟩ | he
      · rw [hsigned] at he
        obtain ⟨hn, hlt⟩ := arith_32_range _ a b (isSigned i.aluCode i.offset)
        refine ⟨_, by rw [he]; rfl, denotes_num_32 hn hlt ?_ idx⟩
        rw [ofInt_arith_32 hop, hs.num b hb, hd.operand32.num a ha]
      · have hden := denotes_binary_b4 hop hd.operand32 hs
          (if i.aluCode = .DIV || i.aluCode = .MOD then i.offset else 0) idx
        rw [hsigned] at hden
        exact ⟨_, by rw [he]; rfl, hden⟩

/-- The registers whose value an instruction reads. -/
def aluReads (i : Instr) : List Reg :=
  match i.aluCode with
  | .MOV => if i.opcodeS = .reg then [i.srcReg] else []
  | .NEG | .END => [i.dstReg]
  | _ => if i.opcodeS = .reg then [i.dstReg, i.srcReg] else [i.dstReg]

/-- A register that holds a value which denotes the number the machine has in it. -/
def Holds (R : Option (Reads maps)) (blk : Option Nat) (st : Z3State maps) (m : ZModel) (b : Block)
    (v : Reg → BitVec 64) (r : Reg) : Prop :=
  ∃ o, b.regs r = some o ∧ Denotes R blk st m o.val (v r)

theorem Denotes.not_ptr {e : Expr} {v : BitVec 64} (h : Denotes R blk st m e v) (p : PTR Expr) :
    e ≠ .ptr p := by
  rintro rfl
  obtain ⟨t, ht, -⟩ := h.lowers
  rw [exprToZ3] at ht
  cases ht

theorem aluSource_denotes_b8 {i : Instr} (hvalid : Isa.ValidAlu i) {b : Block}
    {v : Reg → BitVec 64} (hsrc : i.opcodeS = .reg → Holds R blk st m b v i.srcReg)
    (hclass : i.opcodeClass = .ALU64) (idx : Nat) :
    ∃ q, aluSource idx i b = some q ∧ Denotes R blk st m q.val (Isa.source i (v i.srcReg)) := by
  unfold aluSource Isa.source
  cases hs : i.opcodeS with
  | reg => exact hsrc hs
  | imm =>
      refine ⟨_, rfl, ?_⟩
      rw [if_pos hclass]
      exact denotes_imm64 hvalid.2.2.1.1 hvalid.2.2.1.2

theorem aluSource_operand_b4 {i : Instr} {b : Block} {v : Reg → BitVec 64}
    (hsrc : i.opcodeS = .reg → Holds R blk st m b v i.srcReg) (hclass : i.opcodeClass ≠ .ALU64)
    (idx : Nat) :
    ∃ q, aluSource idx i b = some q ∧
      Operand R blk st m 32 q.val ((Isa.source i (v i.srcReg)).setWidth 32) := by
  unfold aluSource Isa.source
  cases hs : i.opcodeS with
  | reg =>
      obtain ⟨q, hq, hden⟩ := hsrc hs
      exact ⟨q, hq, hden.operand32⟩
  | imm =>
      refine ⟨_, rfl, ?_⟩
      rw [if_neg hclass, ofInt_setWidth_32]
      exact operand_num (by decide) i.imm (-1)

theorem truncObj_num (idx : Nat) (n i : Int) (size : Nat) (org : Origin) :
    ∃ o', truncObj idx (some ⟨org, .num n size i⟩) = some o' ∧
      Denotes R blk st m o'.val (((BitVec.ofInt 64 n).setWidth 32).setWidth 64) := by
  refine ⟨.fresh idx (.num (n % 2 ^ 32) 4 idx), rfl, ?_⟩
  exact denotes_num_32 (Int.emod_nonneg n (by decide)) (Int.emod_lt_of_pos n (by decide))
    ((ofInt_emod 32 n).trans (ofInt_setWidth_32 n).symm) idx

section Step

variable {i : Instr} {b : Block} {v : Reg → BitVec 64}

/-- A move without sign extension. -/
theorem aluResult_mov (hvalid : Isa.ValidAlu i) (hcode : i.aluCode = .MOV) (hoff : i.offset = 0)
    (hsrc : i.opcodeS = .reg → Holds R blk st m b v i.srcReg) (idx : Nat) :
    ∃ o, aluResult idx i b = .ok (some o, b) ∧
      Denotes R blk st m o.val (Isa.alu i (v i.dstReg) (v i.srcReg)) := by
  by_cases hclass : i.opcodeClass = .ALU64
  · obtain ⟨q, hq, hden⟩ := aluSource_denotes_b8 hvalid hsrc hclass idx
    refine ⟨q, ?_, ?_⟩
    · simp [aluResult, hcode, hoff, hclass, hq, pure, Except.pure]
    · simpa [Isa.alu, hcode, hoff, hclass, Isa.source] using hden
  · have htrunc : ∃ o, truncObj idx (aluSource idx i b) = some o ∧
        Denotes R blk st m o.val (((Isa.source i (v i.srcReg)).setWidth 32).setWidth 64) := by
      unfold aluSource Isa.source
      cases hs : i.opcodeS with
      | reg =>
          obtain ⟨q, hq, hden⟩ := hsrc hs
          simp only [hq]
          exact truncObj_denotes hden idx
      | imm =>
          simp only [if_neg hclass]
          exact truncObj_num idx i.imm (-1) 4 _
    obtain ⟨o, ho, hden⟩ := htrunc
    refine ⟨o, ?_, ?_⟩
    · simp [aluResult, hcode, hoff, hclass, ho, pure, Except.pure]
    · simpa [Isa.alu, Isa.low, hcode, hoff, hclass, Isa.source] using hden

/-- A move with sign extension. -/
theorem aluResult_movsx (hvalid : Isa.ValidAlu i) (hcode : i.aluCode = .MOV) (hoff : i.offset ≠ 0)
    (hsrc : i.opcodeS = .reg → Holds R blk st m b v i.srcReg) (idx : Nat) :
    ∃ o, aluResult idx i b = .ok (some o, b) ∧
      Denotes R blk st m o.val (Isa.alu i (v i.dstReg) (v i.srcReg)) := by
  have hform := hvalid.2.2.2
  rw [hcode] at hform
  obtain ⟨hreg, hbits⟩ := hform.resolve_left hoff
  obtain ⟨q, hq, hden⟩ := hsrc hreg
  obtain ⟨n, hpos, hle, hn⟩ : ∃ n : Nat, 0 < n ∧ n ≤ 64 ∧ i.offset = n := by
    rcases hbits with h | h | ⟨h, -⟩
    · exact ⟨8, by decide, by decide, h⟩
    · exact ⟨16, by decide, by decide, h⟩
    · exact ⟨32, by decide, by decide, h⟩
  have hsource : aluSource idx i b = some q := by simp [aluSource, hreg, hq]
  by_cases hclass : i.opcodeClass = .ALU64
  · obtain ⟨e, he, hval⟩ := denotes_sext hden hpos hle .b8 idx
    refine ⟨.fresh idx e, ?_, ?_⟩
    · rw [← hn] at he
      simp [aluResult, hcode, hoff, hclass, hsource, he, bind, Except.bind, pure, Except.pure]
    · have halu : Isa.alu i (v i.dstReg) (v i.srcReg) =
          ((v i.srcReg).setWidth i.offset.toNat).signExtend 64 := by
        simp only [Isa.alu, hcode, if_neg hoff, if_pos hclass]
      rw [halu, hn, Int.toNat_natCast]
      exact hval
  · obtain ⟨e, he, hval⟩ := denotes_sext hden hpos hle .b4 idx
    refine ⟨.fresh idx e, ?_, ?_⟩
    · rw [← hn] at he
      simp [aluResult, hcode, hoff, hclass, hsource, he, bind, Except.bind, pure, Except.pure]
    · have halu : Isa.alu i (v i.dstReg) (v i.srcReg) =
          (((v i.srcReg).setWidth i.offset.toNat).signExtend 32).setWidth 64 := by
        simp only [Isa.alu, hcode, if_neg hoff, if_neg hclass]
      rw [halu, hn, Int.toNat_natCast]
      exact hval

/-- The result of an instruction that is no move on a value that is no pointer. -/
theorem aluResult_scalar {o : Obj} (hdst : b.regs i.dstReg = some o)
    (hptr : ∀ p, o.val ≠ .ptr p) (hcode : i.aluCode ≠ .MOV) (idx : Nat) :
    aluResult idx i b = .ok (if i.aluCode = .NEG || i.aluCode = .END then
        some (.fresh idx (unaryAlu idx i (if i.opcodeClass = .ALU64 then .b8 else .b4) (some o.val)))
      else binaryAlu idx i (if i.opcodeClass = .ALU64 then .b8 else .b4) (some o)
        (aluSource idx i b), b) := by
  obtain ⟨org, e⟩ := o
  unfold aluResult
  rw [if_neg hcode, hdst]
  cases e with
  | ptr p => exact absurd rfl (hptr p)
  | _ =>
      simp only [Option.map_some]
      split <;> rfl

/-- A negation, folded or not. -/
theorem unaryAlu_neg (hcode : i.aluCode = .NEG) {e : Expr} {x : BitVec 64}
    (hden : Denotes R blk st m e x) (size : AluSize) (idx : Nat) :
    Denotes R blk st m (unaryAlu idx i size (some e))
      (match size with
        | .b8 => -x
        | .b4 => (-(x.setWidth 32)).setWidth 64) := by
  have hwidth : unaryWidth i size = size.bytes := by simp [unaryWidth, hcode]
  have hneg := denotes_neg hden i.opcodeS i.imm size (i.opcodeClass = .ALU64)
  unfold unaryAlu
  rw [hcode]
  cases e with
  | num n sz k =>
      have hn : BitVec.ofInt 64 n = x := hden.num n rfl
      cases size with
      | b8 =>
          have hval : BitVec.ofInt 64 (arith .NEG n 0 64 false) = -x := by
            rw [← hn, ← BitVec.ofInt_neg]
            rfl
          simp only [← hval]
          exact denotes_num_8 _ idx
      | b4 =>
          have hval : BitVec.ofInt 32 (arith .NEG n 0 32 false) = -(x.setWidth 32) := by
            rw [← hn, ofInt_setWidth_32, ← BitVec.ofInt_neg]
            change BitVec.ofInt 32 (-(n % 2 ^ 32) % 2 ^ 32) = _
            rw [ofInt_emod, BitVec.ofInt_neg, ofInt_emod, BitVec.ofInt_neg]
          exact denotes_num_32 (Int.emod_nonneg _ (by decide)) (Int.emod_lt_of_pos _ (by decide))
            hval idx
  | _ =>
      simp only [hwidth]
      exact hneg

theorem aluResult_neg (hcode : i.aluCode = .NEG) (hdst : Holds R blk st m b v i.dstReg)
    (idx : Nat) :
    ∃ o, aluResult idx i b = .ok (some o, b) ∧
      Denotes R blk st m o.val (Isa.alu i (v i.dstReg) (v i.srcReg)) := by
  obtain ⟨o, ho, hden⟩ := hdst
  refine ⟨_, by rw [aluResult_scalar ho hden.not_ptr (by simp [hcode]), if_pos (by simp [hcode])],
    ?_⟩
  by_cases hclass : i.opcodeClass = .ALU64
  · have halu : Isa.alu i (v i.dstReg) (v i.srcReg) = -v i.dstReg := by
      simp only [Isa.alu, hcode, if_pos hclass]
    rw [halu, if_pos hclass]
    exact unaryAlu_neg hcode hden .b8 idx
  · have halu : Isa.alu i (v i.dstReg) (v i.srcReg) =
        (-((v i.dstReg).setWidth 32)).setWidth 64 := by
      simp only [Isa.alu, hcode, if_neg hclass]
    rw [halu, if_neg hclass]
    exact unaryAlu_neg hcode hden .b4 idx

/-- A byte swap. -/
theorem aluResult_end (hvalid : Isa.ValidAlu i) (hcode : i.aluCode = .END)
    (hdst : Holds R blk st m b v i.dstReg) (idx : Nat) :
    ∃ o, aluResult idx i b = .ok (some o, b) ∧
      Denotes R blk st m o.val (Isa.alu i (v i.dstReg) (v i.srcReg)) := by
  obtain ⟨o, ho, hden⟩ := hdst
  have hform := hvalid.2.2.2
  rw [hcode] at hform
  refine ⟨_, by rw [aluResult_scalar ho hden.not_ptr (by simp [hcode]), if_pos (by simp [hcode])],
    ?_⟩
  have hend := denotes_end hden hform.2.1 i.opcodeS (i.opcodeClass = .ALU64)
  have hwidth : ∀ size, unaryWidth i size = (i.imm / 8).toNat := fun size => by
    unfold unaryWidth
    rw [hcode]
    rcases hform.2.1 with h | h | h <;> simp [h]
  have halu : Isa.alu i (v i.dstReg) (v i.srcReg) =
      if i.opcodeClass = .ALU64 || i.opcodeS = .reg then Isa.byteSwap (i.imm.toNat / 8) (v i.dstReg)
      else Isa.low (8 * (i.imm.toNat / 8)) (v i.dstReg) := by
    simp only [Isa.alu, hcode]
  rw [halu]
  unfold unaryAlu
  rw [hcode, hwidth]
  exact hend

/-- A two-operand instruction. -/
theorem aluResult_binary (hvalid : Isa.ValidAlu i) (hop : i.aluCode.isBinary)
    (hdst : Holds R blk st m b v i.dstReg)
    (hsrc : i.opcodeS = .reg → Holds R blk st m b v i.srcReg) (idx : Nat) :
    ∃ o, aluResult idx i b = .ok (some o, b) ∧
      Denotes R blk st m o.val (Isa.alu i (v i.dstReg) (v i.srcReg)) := by
  obtain ⟨o, ho, hden⟩ := hdst
  have hmov : i.aluCode ≠ .MOV := by
    intro h
    rw [h] at hop
    cases hop
  have hunary : ¬(i.aluCode = .NEG || i.aluCode = .END) := by
    intro h
    cases hc : i.aluCode <;> simp [hc, AluOp.isBinary] at h hop
  have hsigned : ∀ w (x y : BitVec w), Isa.binary i.aluCode (isSigned i.aluCode i.offset) x y =
      Isa.binary i.aluCode (i.offset = 1) x y := by
    intro w x y
    cases hc : i.aluCode <;> simp [Isa.binary, isSigned]
  have hresult := aluResult_scalar ho hden.not_ptr hmov idx
  rw [if_neg hunary] at hresult
  by_cases hclass : i.opcodeClass = .ALU64
  · obtain ⟨q, hq, hsource⟩ := aluSource_denotes_b8 hvalid hsrc hclass idx
    obtain ⟨o', ho', hval⟩ := binaryAlu_denotes_b8 hop hden hsource.operand64 idx
    rw [if_pos hclass, hq, ho'] at hresult
    refine ⟨o', hresult, ?_⟩
    have halu : Isa.alu i (v i.dstReg) (v i.srcReg) =
        Isa.binary i.aluCode (i.offset = 1) (v i.dstReg) (Isa.source i (v i.srcReg)) := by
      cases hc : i.aluCode <;> simp_all [Isa.alu, AluOp.isBinary]
    rw [halu, ← hsigned]
    exact hval
  · obtain ⟨q, hq, hsource⟩ := aluSource_operand_b4 hsrc hclass idx
    obtain ⟨o', ho', hval⟩ := binaryAlu_denotes_b4 hop hden hsource idx
    rw [if_neg hclass, hq, ho'] at hresult
    refine ⟨o', hresult, ?_⟩
    have halu : Isa.alu i (v i.dstReg) (v i.srcReg) =
        (Isa.binary i.aluCode (i.offset = 1) ((v i.dstReg).setWidth 32)
          ((Isa.source i (v i.srcReg)).setWidth 32)).setWidth 64 := by
      cases hc : i.aluCode <;> simp_all [Isa.alu, AluOp.isBinary]
    rw [halu, ← hsigned]
    exact hval

/-- One instruction whose operands are known gives its destination the value of the
instruction set and leaves the other registers alone. -/
theorem trackAlu_denotes (hvalid : Isa.ValidAlu i)
    (hreads : ∀ r ∈ aluReads i, Holds R blk st m b v r) (idx : Nat) :
    ∃ o, trackAlu idx i b = .ok (b.setReg i.dstReg (some o)) ∧
      Denotes R blk st m o.val (Isa.alu i (v i.dstReg) (v i.srcReg)) := by
  have hresult : ∃ o, aluResult idx i b = .ok (some o, b) ∧
      Denotes R blk st m o.val (Isa.alu i (v i.dstReg) (v i.srcReg)) := by
    cases hcode : i.aluCode with
    | MOV =>
        have hsrc : i.opcodeS = .reg → Holds R blk st m b v i.srcReg := fun hs =>
          hreads _ (by simp [aluReads, hcode, hs])
        by_cases hoff : i.offset = 0
        · exact aluResult_mov hvalid hcode hoff hsrc idx
        · exact aluResult_movsx hvalid hcode hoff hsrc idx
    | NEG => exact aluResult_neg hcode (hreads _ (by simp [aluReads, hcode])) idx
    | END => exact aluResult_end hvalid hcode (hreads _ (by simp [aluReads, hcode])) idx
    | code_e | code_f =>
        have hform := hvalid.2.2.2
        rw [hcode] at hform
        exact hform.elim
    | _ =>
        have hdst : Holds R blk st m b v i.dstReg := hreads _ (by
          simp only [aluReads, hcode]
          split <;> simp)
        have hsrc : i.opcodeS = .reg → Holds R blk st m b v i.srcReg := fun hs =>
          hreads _ (by simp [aluReads, hcode, hs])
        exact aluResult_binary hvalid (by rw [hcode]; rfl) hdst hsrc idx
  obtain ⟨o, ho, hden⟩ := hresult
  refine ⟨o, ?_, hden⟩
  rw [trackAlu, ho]
  rfl

end Step

/-- The instructions of a sequence, tracked from the instruction `start` on. -/
def trackAlus (start : Nat) (instrs : List Instr) (b : Block) : Except TrackError Block :=
  (instrs.zipIdx start).foldlM (fun b x => trackAlu x.2 x.1 b) b

/-- The registers after a sequence, as the instruction set has them. -/
def aluRun (instrs : List Instr) (v : Reg → BitVec 64) : Reg → BitVec 64 :=
  instrs.foldl (fun v i => Function.update v i.dstReg (Isa.alu i (v i.dstReg) (v i.srcReg))) v

/-- Every instruction is valid and reads only registers of `known` or ones that an
instruction before it wrote. -/
def ReadsKnown : List Reg → List Instr → Prop
  | _, [] => True
  | known, i :: instrs =>
      Isa.ValidAlu i ∧ (∀ r ∈ aluReads i, r ∈ known) ∧ ReadsKnown (i.dstReg :: known) instrs

/-- The registers that are known after a sequence. -/
def knownAfter (known : List Reg) (instrs : List Instr) : List Reg :=
  instrs.foldl (fun known i => i.dstReg :: known) known

theorem trackAlus_denotes (instrs : List Instr) {known : List Reg} (hvalid : ReadsKnown known instrs)
    {b : Block} {v : Reg → BitVec 64} (hknown : ∀ r ∈ known, Holds R blk st m b v r) (start : Nat) :
    ∃ b', trackAlus start instrs b = .ok b' ∧
      ∀ r ∈ knownAfter known instrs, Holds R blk st m b' (aluRun instrs v) r := by
  induction instrs generalizing known b v start with
  | nil => exact ⟨b, rfl, hknown⟩
  | cons i instrs ih =>
      obtain ⟨hi, hreads, hrest⟩ := hvalid
      obtain ⟨o, ho, hden⟩ := trackAlu_denotes hi (fun r hr => hknown r (hreads r hr)) start
      have hnext : ∀ r ∈ i.dstReg :: known, Holds R blk st m (b.setReg i.dstReg (some o))
          (Function.update v i.dstReg (Isa.alu i (v i.dstReg) (v i.srcReg))) r := by
        intro r hr
        by_cases hdst : r = i.dstReg
        · subst hdst
          exact ⟨o, by simp [Block.setReg], by simpa using hden⟩
        · obtain ⟨o', ho', hden'⟩ := hknown r ((List.mem_cons.mp hr).resolve_left hdst)
          exact ⟨o', by simpa [Block.setReg, hdst] using ho', by simpa [hdst] using hden'⟩
      obtain ⟨b', hb', hall⟩ := ih hrest hnext (start + 1)
      refine ⟨b', ?_, hall⟩
      rw [trackAlus, List.zipIdx_cons, List.foldlM_cons, ho]
      exact hb'

/-- A constant as immediate moves and loads make it: of eight bytes, or an unsigned
number of its size. -/
def ScalarConst : Expr → Prop
  | .num n size _ => size = 8 ∨ (size ≤ 8 ∧ 0 ≤ n ∧ n < 2 ^ (8 * size))
  | _ => False

/-- A value that is no constant and is lowered at exactly its size. -/
def ScalarLeaf (R : Option (Reads maps)) (blk : Option Nat) (st : Z3State maps) (e : Expr) : Prop :=
  e.num? = none ∧ e.size ≤ 8 ∧ ∃ t, exprToZ3 R blk st e = .ok t ∧ t.size = 8 * e.size

/-- The number a register starts with. -/
def regValue (R : Option (Reads maps)) (blk : Option Nat) (st : Z3State maps) (m : ZModel)
    (b : Block) (r : Reg) : BitVec 64 :=
  match (b.reg r).map (exprToZ3 R blk st) with
  | some (.ok t) => BitVec.ofNat 64 (t.toNat m)
  | _ => 0

theorem holds_of_scalar {b : Block} {r : Reg} {o : Obj} (ho : b.regs r = some o)
    (hscalar : ScalarConst o.val ∨ ScalarLeaf R blk st o.val) :
    Holds R blk st m b (regValue R blk st m b) r := by
  refine ⟨o, ho, ?_⟩
  have hvalue : ∀ t, exprToZ3 R blk st o.val = .ok t →
      regValue R blk st m b r = BitVec.ofNat 64 (t.toNat m) := fun t ht => by
    simp [regValue, Block.reg, ho, ht]
  rcases hscalar with hconst | ⟨hnum, hsize, t, ht, hwidth⟩
  · have hden : ∃ n, Denotes R blk st m o.val (BitVec.ofInt 64 n) := by
      cases he : o.val with
      | num n size i =>
          rw [he] at hconst
          rcases hconst with rfl | ⟨hsize, hn, hlt⟩
          · exact ⟨n, denotes_num_8 n i⟩
          · exact ⟨n, denotes_num hsize hn hlt i⟩
      | _ =>
          rw [he] at hconst
          exact hconst.elim
    obtain ⟨n, hden⟩ := hden
    obtain ⟨t, ht, hval⟩ := hden.lowers
    rw [hvalue t ht, hval, BitVec.ofNat_toNat, BitVec.setWidth_eq]
    exact hden
  · have hlt : t.toNat m < 2 ^ (8 * o.val.size) := hwidth ▸ t.toNat_lt m
    have hpow : 2 ^ (8 * o.val.size) ≤ 2 ^ 64 := Nat.pow_le_pow_right (by decide) (by omega)
    have hval : (BitVec.ofNat 64 (t.toNat m)).toNat = t.toNat m := by
      rw [BitVec.toNat_ofNat, Nat.mod_eq_of_lt (lt_of_lt_of_le hlt hpow)]
    rw [hvalue t ht]
    refine ⟨⟨t, ht, hval.symm⟩, by rw [hval]; exact hlt, fun n hn => ?_⟩
    rw [hnum] at hn
    cases hn

variable (R blk st)

/-- Tracking a sequence of valid ALU instructions from registers that hold scalars
never fails, and in every model the term of every register has the value that the
instruction set gives it. -/
theorem alu_terms_refine_isa {instrs : List Instr} {known : List Reg}
    (hvalid : ReadsKnown known instrs) {b : Block}
    (hinit : ∀ r ∈ known, ∃ o, b.regs r = some o ∧
      (ScalarConst o.val ∨ ScalarLeaf R blk st o.val)) (start : Nat) :
    ∃ b', trackAlus start instrs b = .ok b' ∧
      ∀ (m : ZModel), ∀ r ∈ knownAfter known instrs, ∃ o t, b'.regs r = some o ∧
        exprToZ3 R blk st o.val = .ok t ∧
        t.toNat m = (aluRun instrs (regValue R blk st m b) r).toNat := by
  have hrun : ∀ m : ZModel, ∃ b', trackAlus start instrs b = .ok b' ∧
      ∀ r ∈ knownAfter known instrs,
        Holds R blk st m b' (aluRun instrs (regValue R blk st m b)) r := fun m => by
    refine trackAlus_denotes instrs hvalid (fun r hr => ?_) start
    obtain ⟨o, ho, hscalar⟩ := hinit r hr
    exact holds_of_scalar ho hscalar
  obtain ⟨b', hb', -⟩ := hrun fun s _ => s.zero
  refine ⟨b', hb', fun m r hr => ?_⟩
  obtain ⟨b'', hb'', hall⟩ := hrun m
  obtain rfl := Except.ok.inj (hb'.symm.trans hb'')
  obtain ⟨o, ho, hden⟩ := hall r hr
  obtain ⟨t, ht, hval⟩ := hden.lowers
  exact ⟨o, t, ho, ht, hval⟩

instance (known : List Reg) (instrs : List Instr) : Decidable (ReadsKnown known instrs) :=
  match instrs with
  | [] => isTrue trivial
  | i :: instrs =>
      have : Decidable (ReadsKnown (i.dstReg :: known) instrs) :=
        instDecidableReadsKnown (i.dstReg :: known) instrs
      inferInstanceAs (Decidable (_ ∧ _ ∧ _))

end Denotes

/-- `r1 *= 3; r2 = r1; w2 >>= 4`. -/
def scaleAndShift : List Instr :=
  [{ opcodeClass := .ALU64, opcodeS := .imm, aluCode := .MUL, jmpCode := .JA, opcodeSz := .W
     opcodeMode := .IMM, srcReg := 0, dstReg := 1, offset := 0, imm := 3, wideInstr := false
     nextImm := 0, reloc := none },
   { opcodeClass := .ALU64, opcodeS := .reg, aluCode := .MOV, jmpCode := .JA, opcodeSz := .W
     opcodeMode := .IMM, srcReg := 1, dstReg := 2, offset := 0, imm := 0, wideInstr := false
     nextImm := 0, reloc := none },
   { opcodeClass := .ALU, opcodeS := .imm, aluCode := .RSH, jmpCode := .JA, opcodeSz := .W
     opcodeMode := .IMM, srcReg := 0, dstReg := 2, offset := 0, imm := 4, wideInstr := false
     nextImm := 0, reloc := none }]

/-- A block whose `r1` holds an unknown number of four bytes. -/
def scalarBlock : Block :=
  { num := 0, start := 0, «end» := 2
    regs := Function.update (fun _ => none) 1 (some ⟨.init 1, .scalar 4 0⟩) }

theorem alu_terms_refine_isa_scale_and_shift :
    ∃ b', trackAlus 0 scaleAndShift scalarBlock = .ok b' ∧
      ∀ (m : ZModel), ∀ r ∈ knownAfter [1] scaleAndShift, ∃ o t, b'.regs r = some o ∧
        exprToZ3 none (some 0) (makeInitState []) o.val = .ok t ∧
        t.toNat m = (aluRun scaleAndShift
          (regValue none (some 0) (makeInitState []) m scalarBlock) r).toNat := by
  refine alu_terms_refine_isa none (some 0) (makeInitState []) (by decide) (fun r hr => ?_) 0
  obtain rfl := List.mem_singleton.mp hr
  exact ⟨_, rfl, .inr ⟨rfl, by decide, _, rfl, rfl⟩⟩

end Hornet
