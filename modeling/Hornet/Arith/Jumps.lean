import Hornet.Arith.Lowering
import Hornet.Track.Effects

/-!
Jump conditions agree with the instruction set. A comparison is lowered at a width
that depends on the operands, the signedness of the code and the class of the jump;
these lemmas show that on zero-extended operands the width is invisible.
-/

namespace Hornet

open Smt

section Compare

variable {w x y : Nat}

theorem toNat_ofNat_narrow (hw : w ≤ 64) (hx : x < 2 ^ w) :
    (BitVec.ofNat w x).toNat = (BitVec.ofNat 64 x).toNat := by
  have hle : 2 ^ w ≤ 2 ^ 64 := Nat.pow_le_pow_right (by omega) hw
  rw [BitVec.toNat_ofNat, BitVec.toNat_ofNat, Nat.mod_eq_of_lt hx, Nat.mod_eq_of_lt (by omega)]

/-- The codes that read their operands as signed numbers. -/
def JmpOp.isSigned (code : JmpOp) : Bool :=
  code = .JSGT || code = .JSGE || code = .JSLT || code = .JSLE

/-- An unsigned comparison gives the same answer at every width that holds the
operands. -/
theorem compare_narrow {code : JmpOp} (hcode : code.isSigned = false) (hw : w ≤ 64)
    (hx : x < 2 ^ w) (hy : y < 2 ^ w) :
    Isa.compare code (BitVec.ofNat w x) (BitVec.ofNat w y) =
      Isa.compare code (BitVec.ofNat 64 x) (BitVec.ofNat 64 y) := by
  have hxs := toNat_ofNat_narrow hw hx
  have hys := toNat_ofNat_narrow hw hy
  have heq : (BitVec.ofNat w x == BitVec.ofNat w y) =
      (BitVec.ofNat 64 x == BitVec.ofNat 64 y) := by
    rw [Bool.eq_iff_iff, beq_iff_eq, beq_iff_eq, ← BitVec.toNat_inj, ← BitVec.toNat_inj, hxs, hys]
  have hset : (BitVec.ofNat w x &&& BitVec.ofNat w y == 0#w) =
      (BitVec.ofNat 64 x &&& BitVec.ofNat 64 y == 0#64) := by
    rw [Bool.eq_iff_iff, beq_iff_eq, beq_iff_eq, ← BitVec.toNat_inj, ← BitVec.toNat_inj,
      BitVec.toNat_and, BitVec.toNat_and, hxs, hys]
    simp
  cases code with
  | JSGT | JSGE | JSLT | JSLE => cases hcode
  | JEQ => exact heq
  | JNE => exact congrArg not heq
  | JSET => exact congrArg not hset
  | JGT | JGE | JLT | JLE => simp only [Isa.compare, BitVec.ult, BitVec.ule, hxs, hys]
  | _ => rfl

/-- The term of a comparison of a conditional jump. -/
theorem eval_cmpTerm (m : ZModel) {code : JmpOp} (hcode : Isa.isConditional code) (jmp32 : Bool)
    (d s : ZBv) :
    ∃ t width, cmpTerm code d s jmp32 = .ok t ∧
      width = (if jmp32 then 32
        else if code.isSigned then max (max d.size s.size) 64 else max d.size s.size) ∧
      t.eval m = Isa.compare code (BitVec.ofNat width (d.toNat m)) (BitVec.ofNat width (s.toNat m)) := by
  cases code with
  | JA | CALL | EXIT | code_e | code_f => cases hcode
  | JEQ | JNE | JSET =>
      refine ⟨_, _, rfl, rfl, ?_⟩
      simp only [Term.eval_cmp, Term.eval_not, Term.eval_bin, eval_resize]
      rfl
  | _ =>
      refine ⟨_, _, rfl, rfl, ?_⟩
      simp [CmpOp.eval, Isa.compare, JmpOp.isSigned, eval_resize]

/-- A comparison of operands of at most 64 bits is the one of the instruction set on
the zero-extended registers. -/
theorem cmpTerm_taken (m : ZModel) {code : JmpOp} (hcode : Isa.isConditional code) (jmp32 : Bool)
    {d s : ZBv} (hd : d.size ≤ 64) (hs : s.size ≤ 64) :
    ∃ t, cmpTerm code d s jmp32 = .ok t ∧
      t.eval m = Isa.taken jmp32 code (BitVec.ofNat 64 (d.toNat m)) (BitVec.ofNat 64 (s.toNat m)) := by
  obtain ⟨t, width, ht, hwidth, heval⟩ := eval_cmpTerm m hcode jmp32 d s
  refine ⟨t, ht, heval.trans ?_⟩
  cases jmp32 with
  | true =>
      have h32 : width = 32 := hwidth
      subst h32
      have hlow : ∀ n : Nat, (BitVec.ofNat 64 n).setWidth 32 = BitVec.ofNat 32 n := by
        intro n
        apply BitVec.eq_of_toNat_eq
        simp only [BitVec.toNat_setWidth, BitVec.toNat_ofNat]
        omega
      rw [Isa.taken, if_pos rfl, hlow, hlow]
  | false =>
      rw [Isa.taken, if_neg Bool.false_ne_true]
      cases hsigned : code.isSigned with
      | true =>
          rw [hsigned] at hwidth
          have h64 : width = 64 := by
            rw [hwidth, if_neg Bool.false_ne_true, if_pos rfl]
            omega
          rw [h64]
      | false =>
          rw [hsigned, if_neg Bool.false_ne_true, if_neg Bool.false_ne_true] at hwidth
          apply compare_narrow hsigned (by omega)
          · exact toNat_lt_of_size m (by omega)
          · exact toNat_lt_of_size m (by omega)

end Compare

section Condition

variable {maps : List MapInfo} {R : Option (Reads maps)} {blk : Option Nat} {st : Z3State maps}

theorem isPTR_of_lowered {e : Expr} {t : ZBv} (h : exprToZ3 R blk st e = .ok t) :
    e.isPTR = false := by
  cases e with
  | ptr p => cases h
  | _ => rfl

theorem ptr?_of_isPTR {e : Expr} (h : e.isPTR = false) : e.ptr? = none := by
  cases e with
  | ptr p => cases h
  | _ => rfl

/-- The condition of a jump on two scalars is the term of their comparison. -/
theorem toZ3_cmp {code : JmpOp} {dst src : Expr} {d s : ZBv} (hd : exprToZ3 R blk st dst = .ok d)
    (hs : exprToZ3 R blk st src = .ok s) (jmp32 : Bool) :
    Condition.toZ3 R blk st (.cmp code (some dst) (some src) jmp32) =
      (cmpTerm code d s jmp32).map Guard.term := by
  have htest : nullTest (some dst) (some src) = none := by
    unfold nullTest
    simp only [Option.bind_some, ptr?_of_isPTR (isPTR_of_lowered hd),
      ptr?_of_isPTR (isPTR_of_lowered hs)]
  simp only [Condition.toZ3, htest, ite_self, someToZ3, hd, hs]
  rfl

/-- Jump conditions are those of the instruction set, for every conditional code, both
classes and operands of any widths up to 64 bits. -/
theorem jump_condition_isa (m : ZModel) {code : JmpOp} (hcode : Isa.isConditional code)
    (jmp32 : Bool) {dst src : Expr} {d s : ZBv} (hd : exprToZ3 R blk st dst = .ok d)
    (hs : exprToZ3 R blk st src = .ok s) (hdsize : d.size ≤ 64) (hssize : s.size ≤ 64) :
    ∃ t, Condition.toZ3 R blk st (.cmp code (some dst) (some src) jmp32) = .ok (.term t) ∧
      t.eval m = Isa.taken jmp32 code (BitVec.ofNat 64 (d.toNat m)) (BitVec.ofNat 64 (s.toNat m)) := by
  obtain ⟨t, ht, heval⟩ := cmpTerm_taken m hcode jmp32 hdsize hssize
  refine ⟨t, ?_, heval⟩
  rw [toZ3_cmp hd hs, ht]
  rfl

theorem jump_condition_isa_byte :
    ∃ t, Condition.toZ3 none none (makeInitState [])
        (.cmp .JSGT (some (.num 5 1 (-1))) (some (.num (-1) 8 (-1))) false) = .ok (.term t) ∧
      t.eval (Model.ofNats fun _ => none) = true := by
  have hd : exprToZ3 none none (makeInitState []) (.num 5 1 (-1)) = .ok ⟨8, bvVal 5 8⟩ := rfl
  have hs : exprToZ3 none none (makeInitState []) (.num (-1) 8 (-1)) = .ok ⟨64, bvVal (-1) 64⟩ := rfl
  have hcode : Isa.isConditional .JSGT = true := rfl
  obtain ⟨t, ht, heval⟩ := jump_condition_isa (Model.ofNats fun _ => none) hcode false hd hs
    (by decide) (by decide)
  exact ⟨t, ht, heval.trans (by decide)⟩

end Condition

section TailCall

variable {maps : List MapInfo} {R : Option (Reads maps)} {blk : Option Nat} {st : Z3State maps}

/-- When the test for equality with the slot, reduced to the `w` bits of the index, is
the kernel's test on an index of value `x`. -/
def TailIndexExact (w slot entries x : Nat) : Prop :=
  if slot < entries ∧ slot < 2 ^ w ∧ slot < 2 ^ 32 then x < 2 ^ 32 ∨ x % 2 ^ 32 ≠ slot
  else x ≠ slot % 2 ^ w

theorem tailCallEnters_iff {entries slot x : Nat} (hx : x < 2 ^ 64) :
    Isa.tailCallEnters entries slot (BitVec.ofNat 64 x) = true ↔
      x % 2 ^ 32 = slot ∧ slot < entries := by
  have hlow : ((BitVec.ofNat 64 x).setWidth 32).toNat = x % 2 ^ 32 := by
    rw [BitVec.toNat_setWidth, BitVec.toNat_ofNat, Nat.mod_eq_of_lt hx]
  rw [Isa.tailCallEnters, hlow, Bool.and_eq_true, decide_eq_true_eq, decide_eq_true_eq]

/-- The two tests agree on an index exactly under the condition. -/
theorem tailIndexExact_iff {w slot entries x : Nat} (hx : x < 2 ^ w) :
    (x = slot % 2 ^ w ↔ x % 2 ^ 32 = slot ∧ slot < entries) ↔
      TailIndexExact w slot entries x := by
  have hmod : x % 2 ^ 32 ≤ x := Nat.mod_le x (2 ^ 32)
  have hlt : x % 2 ^ 32 < 2 ^ 32 := Nat.mod_lt x (by decide)
  unfold TailIndexExact
  split
  · rename_i hslot
    obtain ⟨hentries, hwidth, h32⟩ := hslot
    rw [Nat.mod_eq_of_lt hwidth]
    constructor
    · intro h
      by_contra hnot
      omega
    · intro h
      omega
  · rename_i hslot
    -- no index enters a slot that is not in the array or that no index can name
    have hnever : ¬(x % 2 ^ 32 = slot ∧ slot < entries) := by
      rintro ⟨heq, hentries⟩
      exact hslot ⟨hentries, by omega, by omega⟩
    exact iff_false_right hnever

/-- The condition of a tail call with a known slot is the kernel's test on the index
exactly when the slot is in the array, fits the index and its high bits are clear or
the low ones name another slot; or when the index is not the reduced slot. -/
theorem tail_call_index_iff (m : ZModel) {index : Expr} {key : ZBv}
    (hkey : exprToZ3 R blk st index = .ok key) (hsize : key.size ≤ 64) (mapId slot : Nat)
    (idx : Int) :
    ∃ t, Condition.toZ3 R blk st (.tailCallTaken (some mapId) (some index) (some slot) idx) =
        .ok (.term t) ∧
      (t.eval m = Isa.tailCallEnters (maxEntries maps mapId) slot (BitVec.ofNat 64 (key.toNat m)) ↔
        TailIndexExact key.size slot (maxEntries maps mapId) (key.toNat m)) := by
  refine ⟨.cmp .eq key.term (bvVal slot key.size), ?_, ?_⟩
  · simp only [Condition.toZ3, hkey]
    rfl
  · have hx := key.toNat_lt m
    have h64 : key.toNat m < 2 ^ 64 := toNat_lt_of_size m hsize
    have htest : (Term.cmp .eq key.term (bvVal slot key.size)).eval m = true ↔
        key.toNat m = slot % 2 ^ key.size := by
      rw [Term.eval_cmp, eval_bvVal]
      show (key.term.eval m == BitVec.ofInt key.size slot) = true ↔ _
      rw [beq_iff_eq, ← BitVec.toNat_inj, BitVec.ofInt_natCast, BitVec.toNat_ofNat]
      rfl
    rw [Bool.eq_iff_iff, htest, tailCallEnters_iff h64]
    exact tailIndexExact_iff hx

/-- A program array of 512 slots. -/
def jumpTable : List MapInfo := [⟨"jmp_table", 3, 4, 4, 512⟩]

/-- A packet byte never selects the slot 256, but the condition is true of the byte 0. -/
theorem tail_call_truncated_slot :
    ∃ key t, exprToZ3 none none (makeInitState jumpTable)
        (.pktVal 0 0 12 none 1) = .ok key ∧ key.size = 8 ∧
      Condition.toZ3 none none (makeInitState jumpTable)
        (.tailCallTaken (some 0) (some (.pktVal 0 0 12 none 1)) (some 256) 7) = .ok (.term t) ∧
      t.eval (Model.ofNats fun _ => none) ≠ Isa.tailCallEnters (maxEntries jumpTable 0) 256
        (BitVec.ofNat 64 (key.toNat (Model.ofNats fun _ => none))) :=
  ⟨_, _, rfl, rfl, rfl, by decide⟩

theorem tail_call_index_iff_small :
    ∃ t, Condition.toZ3 none none (makeInitState jumpTable)
        (.tailCallTaken (some 0) (some (.num 3 4 (-1))) (some 3) 7) = .ok (.term t) ∧
      (t.eval (Model.ofNats fun _ => none) = Isa.tailCallEnters (maxEntries jumpTable 0) 3
          (BitVec.ofNat 64 (Bv.toNat (Model.ofNats fun _ => none) ⟨32, bvVal 3 32⟩)) ↔
        TailIndexExact 32 3 (maxEntries jumpTable 0)
          (Bv.toNat (Model.ofNats fun _ => none) ⟨32, bvVal 3 32⟩)) := by
  have hkey : exprToZ3 none none (makeInitState jumpTable) (.num 3 4 (-1)) =
      .ok ⟨32, bvVal 3 32⟩ := rfl
  exact tail_call_index_iff (Model.ofNats fun _ => none) hkey (by decide) 0 3 7

end TailCall

end Hornet
