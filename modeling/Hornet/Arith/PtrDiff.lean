import Hornet.Arith.Refine

/-!
The difference of two packet pointers. The machine's pointer is a 64-bit register. The
tracker keeps a constant and a variable part of its distance from the start of the packet
and adds up the variable one in 32 bits, so of a pointer with a variable part only the low
half follows the register. The difference of two packet pointers is taken in 64 bits, the
one of the packet's end and a pointer in 32. These lemmas say what is lost.
-/

namespace Hornet

open Smt

section Difference

variable {maps : List MapInfo} (R : Option (Reads maps)) (blk : Option Nat) (st : Z3State maps)
  (m : ZModel)

/-- `n` is the value of the term that is kept for the pointer's variable offset. A variable
offset is never a constant: constants are added to the constant one. -/
inductive PTR.VarOffset (p : PTR Expr) : Nat → Prop
  | none (h : p.varOff = none) : VarOffset p 0
  | some {v : Expr} {t : ZBv} (h : p.varOff = some v) (hnum : v.num? = none)
      (ht : exprToZ3 R blk st v = .ok t) : VarOffset p (t.toNat m)

/-- The address from which the offset of a pointer counts when the packet is at `data`: the
start of the packet, or its end. -/
def PTR.origin (p : PTR Expr) (data : BitVec 64) : BitVec 64 :=
  if p.ptrType = .PKT_END then data + st.pktLen.eval m else data

/-- The tracker has the pointer `p`, with a variable part of value `n`, in place of the
machine's register `a`. A constant offset is the distance from the origin; of a distance
with a variable part the low half is known. -/
structure PTR.Follows (p : PTR Expr) (n : Nat) (data a : BitVec 64) : Prop where
  varOffset : p.VarOffset R blk st m n
  constant : p.varOff = none → a - p.origin st m data = BitVec.ofInt 64 p.off
  low : p.varOff.isSome → ((a - p.origin st m data).toNat : Int) % 2 ^ 32 = (n + p.off) % 2 ^ 32

/-- The offset as the tracker adds it up. -/
def PTR.tracked (p : PTR Expr) (n : Nat) : Int :=
  if p.varOff.isSome then if p.off = 0 then n else (n + p.off) % 2 ^ 32 else p.off

/-- What the upper half of the machine's distance `x` has more than that of the offset which
the tracker adds up. -/
def PTR.dropped (p : PTR Expr) (n : Nat) (x : BitVec 64) : Int :=
  if p.varOff.isSome then (x.toNat : Int) / 2 ^ 32 - (if p.off = 0 then (n : Int) / 2 ^ 32 else 0)
  else 0

/-- When the tracked difference of two pointers is the one of the machine's registers `a` and
`c`: both lose the same upper half, or the end of the packet is unmoved and the pointer the
start of the packet or the difference a 32-bit number. -/
def DifferenceExact (p q : PTR Expr) (n k : Nat) (data a c : BitVec 64) : Prop :=
  p.checkedNull.isSome ∧
    if p.ptrType = .PKT_END then
      if q.varOff = none ∧ q.off = 0 then a = p.origin st m data
      else (a - c).toNat < 2 ^ 32 ∧ (a - p.origin st m data).toNat % 2 ^ 32 = 0
    else (p.dropped n (a - data) - q.dropped k (c - data)) % 2 ^ 32 = 0

variable {R blk st m}

theorem Operand.narrow {e : Expr} {x : BitVec 64} (h : Operand R blk st m 64 e x) :
    Operand R blk st m 32 e (x.setWidth 32) := by
  obtain ⟨t, ht, hval⟩ := h.lowers
  constructor
  · refine ⟨t, ht, ?_⟩
    rw [← hval]
    apply BitVec.eq_of_toNat_eq
    simp only [BitVec.toNat_setWidth, BitVec.toNat_ofNat]
    omega
  · intro n hn
    rw [← h.num n hn, ofInt_setWidth_32]

/-- The offset of a pointer with a variable part: a constant of zero is not added. -/
theorem totalOffset_cases {p : PTR Expr} {v : Expr} (h : p.varOff = some v) (hnum : v.num? = none) :
    (p.off = 0 ∧ p.totalOffset = v) ∨
      (p.off ≠ 0 ∧ p.totalOffset =
        .binary .ADD (some v) (some (.num p.off 8 (-1))) 0 .b4 (-1)) := by
  have htotal : p.totalOffset = (exprAlu (some v) (some (.num p.off 8 (-1))) .ADD .b4).getD v := by
    simp only [PTR.totalOffset, h]
  rw [htotal]
  by_cases hoff : p.off = 0
  · left
    refine ⟨hoff, ?_⟩
    rw [hoff]
    cases v <;> first | rfl | cases hnum
  · right
    refine ⟨hoff, ?_⟩
    have hkeep : exprAluKeepsDst (some v) (some (.num p.off 8 (-1))) .ADD = false := by
      rw [← Bool.not_eq_true, exprAluKeepsDst_iff]
      rintro ⟨-, -, hzero⟩
      exact hoff (Option.some.inj hzero)
    rcases exprAlu_not_keeps .b4 (-1) 0 hkeep with ⟨a, -, ha, -, -⟩ | hsum
    · rw [hnum] at ha
      cases ha
    · rw [hsum, Option.getD_some]

theorem operand_totalOffset {p : PTR Expr} {n : Nat} (h : p.VarOffset R blk st m n) :
    Operand R blk st m 64 p.totalOffset (BitVec.ofInt 64 (p.tracked n)) := by
  cases h with
  | none h =>
      have htracked : p.tracked 0 = p.off := by simp [PTR.tracked, h]
      have htotal : p.totalOffset = .num p.off 8 (-1) := by simp [PTR.totalOffset, h]
      rw [htracked, htotal]
      exact (denotes_num_8 p.off (-1)).operand64
  | @some v t h hnum ht =>
      rcases totalOffset_cases h hnum with ⟨hoff, htotal⟩ | ⟨hoff, htotal⟩
      · have htracked : p.tracked (t.toNat m) = t.toNat m := by simp [PTR.tracked, h, hoff]
        rw [htotal, htracked]
        constructor
        · exact ⟨t, ht, by simp⟩
        · intro k hk
          rw [hnum] at hk
          cases hk
      · have hv : Operand R blk st m 32 v (BitVec.ofNat 32 (t.toNat m)) := by
          constructor
          · exact ⟨t, ht, rfl⟩
          · intro k hk
            rw [hnum] at hk
            cases hk
        have hop : AluOp.isBinary .ADD = true := rfl
        have hnum : Operand R blk st m 32 (.num p.off 8 (-1)) (BitVec.ofInt 32 p.off) :=
          operand_num (by decide) p.off (-1)
        have hadd := (denotes_binary_b4 hop hv hnum 0 (-1)).operand64
        have htracked : p.tracked (t.toNat m) = (t.toNat m + p.off) % 2 ^ 32 := by
          simp [PTR.tracked, h, hoff]
        have hvalue : (Isa.binary .ADD (isSigned .ADD 0) (BitVec.ofNat 32 (t.toNat m))
            (BitVec.ofInt 32 p.off)).setWidth 64 = BitVec.ofInt 64 (p.tracked (t.toNat m)) := by
          apply BitVec.eq_of_toNat_eq
          rw [htracked, toNat_setWidth_setWidth, BitVec.toNat_ofInt]
          simp only [Isa.binary, BitVec.toNat_add, BitVec.toNat_ofNat, BitVec.toNat_ofInt]
          omega
        rw [hvalue] at hadd
        rw [htotal]
        exact hadd

section Follows

variable {p q : PTR Expr} {n k : Nat} {data a c : BitVec 64}

/-- The machine's distance is the tracked offset and the upper half that is dropped. -/
theorem PTR.Follows.split (h : p.Follows R blk st m n data a) :
    a - p.origin st m data = BitVec.ofInt 64
      (p.tracked n + 2 ^ 32 * p.dropped n (a - p.origin st m data)) := by
  cases hvar : p.varOff with
  | none =>
      rw [h.constant hvar]
      simp [PTR.tracked, PTR.dropped, hvar]
  | some v =>
      have hsome : p.varOff.isSome := by rw [hvar]; rfl
      have hlow := h.low hsome
      apply BitVec.eq_of_toNat_eq
      simp only [PTR.tracked, PTR.dropped, hsome, if_true, BitVec.toNat_ofInt]
      generalize (a - p.origin st m data) = x at hlow ⊢
      have hx := x.isLt
      split <;> omega

/-- The low half of the tracked offset is that of the machine's distance. -/
theorem PTR.Follows.low_tracked (h : p.Follows R blk st m n data a) :
    (BitVec.ofInt 64 (p.tracked n)).setWidth 32 = (a - p.origin st m data).setWidth 32 := by
  rw [h.split, ofInt_setWidth_32, ofInt_setWidth_32]
  apply BitVec.eq_of_toNat_eq
  simp only [BitVec.toNat_ofInt]
  omega

theorem origin_pkt (h : p.ptrType = .PKT) (data : BitVec 64) : p.origin st m data = data := by
  have hnot : p.ptrType ≠ .PKT_END := by
    rw [h]
    nofun
  exact if_neg hnot

/-- The pointer that the context gives is the start of the packet. -/
theorem follows_start (hpkt : p.ptrType = .PKT) (hoff : p.off = 0) (hvar : p.varOff = none) :
    p.Follows R blk st m 0 data data := by
  refine ⟨.none hvar, fun _ => ?_, fun hsome => ?_⟩
  · rw [origin_pkt hpkt, hoff, BitVec.sub_self]
    rfl
  · rw [hvar] at hsome
    cases hsome

/-- A constant moves the offset as it moves the register. -/
theorem PTR.Follows.move (h : p.Follows R blk st m n data a) (p' : PTR Expr) (d : Int)
    (htype : p'.ptrType = p.ptrType) (hvar' : p'.varOff = p.varOff) (hoff : p'.off = p.off + d) : p'.Follows R blk st m n data (a + BitVec.ofInt 64 d) := by
  have horigin : p'.origin st m data = p.origin st m data := by simp only [PTR.origin, htype]
  have hmoved : a + BitVec.ofInt 64 d - p.origin st m data =
      a - p.origin st m data + BitVec.ofInt 64 d := by
    rw [BitVec.sub_eq_add_neg, BitVec.sub_eq_add_neg, BitVec.add_assoc, BitVec.add_assoc,
      BitVec.add_comm (BitVec.ofInt 64 d)]
  refine ⟨?_, fun hvar => ?_, fun hsome => ?_⟩
  · cases h.varOffset with
    | none hvar => exact .none (hvar'.trans hvar)
    | some hvar hnum ht => exact .some (hvar'.trans hvar) hnum ht
  · rw [horigin, hmoved, h.constant (hvar'.symm.trans hvar), hoff, BitVec.ofInt_add]
  · have hlow := h.low (hvar' ▸ hsome)
    rw [horigin, hmoved, hoff]
    generalize a - p.origin st m data = x at hlow ⊢
    simp only [BitVec.toNat_add, BitVec.toNat_ofInt]
    omega

theorem isBinary_of_moves {code : AluOp} (h : code = .ADD ∨ code = .SUB) : code.isBinary = true := by
  rcases h with rfl | rfl <;> rfl

/-- A scalar that is added or subtracted in 32 bits moves the low half as it moves that of
the register. -/
theorem PTR.Follows.addScalar (h : p.Follows R blk st m n data a) {code : AluOp}
    (hcode : code = .ADD ∨ code = .SUB) {src : Expr} (hsrc : src.num? = none) {x : BitVec 64}
    (hx : Operand R blk st m 64 src x) (p' : PTR Expr) (htype : p'.ptrType = p.ptrType)
    (hoff : p'.off = p.off) {idx : Nat}
    (hvar' : p'.varOff = p.addVarOff (some src) code .b4 idx) :
    ∃ k, p'.Follows R blk st m k data (Isa.binary code false a x) := by
  have hbase : Operand R blk st m 32 (p.varOff.getD (.num 0 8 (-1))) (BitVec.ofNat 32 n) := by
    cases h.varOffset with
    | none hvar =>
        rw [hvar]
        exact operand_num (by decide) 0 (-1)
    | some hvar hnum ht =>
        rw [hvar]
        refine ⟨⟨_, ht, rfl⟩, fun k hk => ?_⟩
        rw [Option.getD_some, hnum] at hk
        cases hk
  have hvalue : p'.varOff =
      some (.binary code (some (p.varOff.getD (.num 0 8 (-1)))) (some src) 0 .b4 idx) := by
    have hkeep : exprAluKeepsDst (some (p.varOff.getD (.num 0 8 (-1)))) (some src) code = false := by
      rw [← Bool.not_eq_true, exprAluKeepsDst_iff, hsrc]
      simp
    rcases exprAlu_not_keeps .b4 idx 0 hkeep with ⟨-, d, -, hd, -⟩ | hsum
    · rw [hsrc] at hd
      cases hd
    · exact hvar'.trans hsum
  obtain ⟨t, ht, hterm⟩ :=
    (denotes_binary_b4 (isBinary_of_moves hcode) hbase hx.narrow 0 idx).lowers
  -- before the scalar is added a constant distance is known in both halves
  have hlow : ((a - p.origin st m data).toNat : Int) % 2 ^ 32 = (n + p.off) % 2 ^ 32 := by
    cases hvar : p.varOff with
    | some v => exact h.low (by rw [hvar]; rfl)
    | none =>
        have hzero : n = 0 := by
          cases h.varOffset with
          | none => rfl
          | some hvar'' => rw [hvar''] at hvar; cases hvar
        rw [h.constant hvar, hzero, BitVec.toNat_ofInt]
        omega
  have horigin : p'.origin st m data = p.origin st m data := by simp only [PTR.origin, htype]
  refine ⟨t.toNat m, .some hvalue rfl ht, fun hnone => ?_, fun _ => ?_⟩
  · rw [hvalue] at hnone
    cases hnone
  · have hsigned : isSigned code 0 = false := rfl
    rw [horigin, hoff, hterm, toNat_setWidth_setWidth, hsigned]
    simp only [BitVec.toNat_sub] at hlow ⊢
    generalize p.origin st m data = o at hlow ⊢
    have ha := a.isLt
    have ho := o.isLt
    have hx' := x.isLt
    rcases hcode with rfl | rfl <;>
      simp only [Isa.binary, BitVec.toNat_add, BitVec.toNat_sub, BitVec.toNat_ofNat,
        BitVec.toNat_setWidth] <;>
      omega

/-- The tracked pointer goes on following the register when a 64-bit instruction adds a
constant or a scalar to it or subtracts one. -/
theorem follows_trackAlu {b : Block} {i : Instr} (hclass : i.opcodeClass = .ALU64)
    (hcode : i.aluCode = .ADD ∨ i.aluCode = .SUB) (hdst : b.reg i.dstReg = some (.ptr p))
    (hpkt : p.ptrType = .PKT) (hchecked : p.checkedNull.isSome)
    (h : p.Follows R blk st m n data a) {idx : Nat} {src : Expr} {x : BitVec 64}
    (hsrc : (aluSource idx i b).map (·.val) = some src) (hptr : src.ptr? = none)
    (hx : Operand R blk st m 64 src (Isa.source i x)) :
    ∃ b' p' k, trackAlu idx i b = .ok b' ∧ b'.reg i.dstReg = some (.ptr p') ∧
      p'.ptrType = .PKT ∧ p'.baseId = p.baseId ∧ p'.checkedNull = some false ∧
      p'.Follows R blk st m k data (Isa.alu i a x) := by
  have hmachine : Isa.alu i a x = Isa.binary i.aluCode false a (Isa.source i x) := by
    rcases hcode with hcode | hcode <;> simp only [Isa.alu, hcode, hclass, if_true] <;> rfl
  rw [hmachine]
  obtain ⟨⟨org, -⟩, ho, rfl⟩ := Option.map_eq_some_iff.mp hdst
  have hmov : i.aluCode ≠ .MOV := by
    rcases hcode with hcode | hcode <;> rw [hcode] <;> decide
  have hnone : p.checkedNull.isNone = false := by
    cases hnull : p.checkedNull with
    | none => rw [hnull] at hchecked; cases hchecked
    | some v => rfl
  have hmoves : (i.aluCode ≠ .ADD && i.aluCode ≠ .SUB) = false := by
    rcases hcode with hcode | hcode <;> rw [hcode] <;> rfl
  have hresult : ∀ e b', pktAlu idx i.aluCode b p (some src) = .ok (e, b') →
      trackAlu idx i b = .ok (b'.setReg i.dstReg (some e)) := by
    intro e b' hrun
    have hptrAlu : ptrAlu idx i.aluCode b ⟨org, .ptr p⟩ p (some src) = .ok (e, b') := by
      simp only [ptrAlu, hnone, hmoves, hpkt, Bool.false_eq_true, if_false, if_true, hrun]
    have hres : aluResult idx i b = .ok (some e, b') := by
      simp only [aluResult, if_neg hmov, ho, hsrc, hptrAlu]
      rfl
    rw [trackAlu, hres]
    rfl
  cases hnum : src.num? with
  | some d =>
      let p' : PTR Expr := { ptrType := .PKT, off := p.off + (if i.aluCode = .ADD then d else -d),
                             varOff := p.varOff, id := p.id, baseId := p.baseId }
      have hrun : pktAlu idx i.aluCode b p (some src) = .ok (.fresh idx (.ptr p'), b) := by
        simp only [pktAlu, Option.bind_some, hptr, hnum]
        rfl
      have hfollows : p'.Follows R blk st m n data
          (a + BitVec.ofInt 64 (if i.aluCode = .ADD then d else -d)) :=
        h.move p' _ hpkt.symm rfl rfl
      refine ⟨_, p', n, hresult _ b hrun, by simp [Block.reg, Block.setReg, Obj.fresh], rfl, rfl, rfl, ?_⟩
      have hmoved : a + BitVec.ofInt 64 (if i.aluCode = .ADD then d else -d) =
          Isa.binary i.aluCode false a (Isa.source i x) := by
        rw [← hx.num d hnum]
        rcases hcode with hcode | hcode <;> rw [hcode]
        · rfl
        · rw [if_neg (by decide), BitVec.ofInt_neg, ← BitVec.sub_eq_add_neg]
          rfl
      exact hmoved ▸ hfollows
  | none =>
      let p' : PTR Expr := { ptrType := .PKT, off := p.off,
                             varOff := p.addVarOff (some src) i.aluCode .b4 idx,
                             id := b.newPtrId.1, baseId := p.baseId }
      have hrun : pktAlu idx i.aluCode b p (some src) = .ok (.fresh idx (.ptr p'),
          b.newPtrId.2.setPktFacts { id := some b.newPtrId.1, baseId := p.baseId }) := by
        simp only [pktAlu, Option.bind_some, hptr, hnum]
        rfl
      obtain ⟨k, hfollows⟩ := h.addScalar hcode hnum hx p' hpkt.symm rfl rfl
      exact ⟨_, p', k, hresult _ _ hrun, by simp [Block.reg, Block.setReg, Obj.fresh], rfl, rfl, rfl,
        hfollows⟩

end Follows

/-- A 64-bit difference. -/
theorem operand_sub_b8 {d s : Expr} {x y : BitVec 64} (hd : Operand R blk st m 64 d x)
    (hs : Operand R blk st m 64 s y) (idx : Int) :
    ∃ e, exprAlu (some d) (some s) .SUB .b8 idx = some e ∧ Operand R blk st m 64 e (x - y) := by
  cases hkeep : exprAluKeepsDst (some d) (some s) .SUB with
  | true =>
      obtain ⟨hnum, -, hzero⟩ := exprAluKeepsDst_iff.mp hkeep
      obtain ⟨n, size, i, rfl⟩ : ∃ n size i, s = .num n size i := by
        cases s <;> first | exact ⟨_, _, _, rfl⟩ | cases hzero
      obtain rfl : n = 0 := Option.some.inj hzero
      have hy : y = 0#64 := (hs.num 0 rfl).symm.trans (by simp)
      have hsame : exprAlu (some d) (some (.num 0 size i)) .SUB .b8 idx = some d := by
        cases d <;> first | rfl | cases hnum
      exact ⟨d, hsame, by simpa [hy] using hd⟩
  | false =>
      rcases exprAlu_not_keeps .b8 idx 0 hkeep with ⟨a, b, ha, hb, he⟩ | he
      · refine ⟨_, he, ?_⟩
        have hfold : BitVec.ofInt 64 (arith .SUB a b 64 (isSigned .SUB 0)) = x - y := by
          rw [ofInt_arith_64 rfl, hd.num a ha, hs.num b hb]
          rfl
        rw [← hfold]
        exact (denotes_num_8 _ idx).operand64
      · have hop : AluOp.isBinary .SUB = true := rfl
        exact ⟨_, he, (denotes_binary_b8 hop hd hs 0 idx).operand64⟩

/-- What is left of the packet behind a pointer, in 32 bits. -/
theorem operand_sub_end {q : PTR Expr} {k : Nat} {data c : BitVec 64} (hqtype : q.ptrType = .PKT)
    (hfollows : q.Follows R blk st m k data c) (base : Option Int) (idx : Int) :
    ∃ e, exprAlu (some (.pktLen 4 base)) (some q.totalOffset) .SUB .b4 idx = some e ∧
      Operand R blk st m 64 e (if q.varOff = none ∧ q.off = 0 then st.pktLen.eval m
        else ((st.pktLen.eval m - (c - data)).setWidth 32).setWidth 64) := by
  have hq := hfollows.varOffset
  have hlen : Operand R blk st m 64 (.pktLen 4 base) (st.pktLen.eval m) := by
    constructor
    · exact ⟨⟨64, st.pktLen⟩, rfl, by simp⟩
    · intro n hn
      cases hn
  have hoffset := operand_totalOffset hq
  cases hkeep : exprAluKeepsDst (some (.pktLen 4 base)) (some q.totalOffset) .SUB with
  | true =>
      obtain ⟨-, -, hzero⟩ := exprAluKeepsDst_iff.mp hkeep
      have hstart : q.varOff = none ∧ q.off = 0 := by
        cases hq with
        | none h =>
            refine ⟨h, ?_⟩
            simpa [PTR.totalOffset, h, Expr.num?] using hzero
        | @some v t h hnum ht =>
            rcases totalOffset_cases h hnum with ⟨-, htotal⟩ | ⟨-, htotal⟩
            · rw [htotal, hnum] at hzero
              cases hzero
            · rw [htotal] at hzero
              cases hzero
      obtain ⟨n, size, i, hn⟩ : ∃ n size i, q.totalOffset = .num n size i := by
        cases htotal : q.totalOffset with
        | num n size i => exact ⟨n, size, i, rfl⟩
        | _ => rw [htotal] at hzero; cases hzero
      have hsame : exprAlu (some (.pktLen 4 base)) (some q.totalOffset) .SUB .b4 idx =
          some (.pktLen 4 base) := by
        rw [hn] at hzero ⊢
        obtain rfl : n = 0 := Option.some.inj hzero
        rfl
      rw [if_pos hstart]
      exact ⟨_, hsame, hlen⟩
  | false =>
      have hstart : ¬(q.varOff = none ∧ q.off = 0) := by
        rintro ⟨hvar, hoff⟩
        have hzero : q.totalOffset = .num 0 8 (-1) := by simp [PTR.totalOffset, hvar, hoff]
        rw [hzero] at hkeep
        cases hkeep
      rw [if_neg hstart]
      rcases exprAlu_not_keeps .b4 idx 0 hkeep with ⟨a, -, ha, -, -⟩ | he
      · cases ha
      · refine ⟨_, he, ?_⟩
        have hop : AluOp.isBinary .SUB = true := rfl
        have hsub := (denotes_binary_b4 hop hlen.narrow hoffset.narrow 0 idx).operand64
        have hlow : Isa.binary .SUB (isSigned .SUB 0) ((st.pktLen.eval m).setWidth 32)
            ((BitVec.ofInt 64 (q.tracked k)).setWidth 32) =
            (st.pktLen.eval m - (c - data)).setWidth 32 := by
          rw [hfollows.low_tracked, origin_pkt hqtype]
          apply BitVec.eq_of_toNat_eq
          simp only [Isa.binary, BitVec.toNat_sub, BitVec.toNat_setWidth]
          have hlt := (st.pktLen.eval m).isLt
          omega
        rw [hlow] at hsub
        exact hsub

/-- The value that subtracting `q` from the decided pointer `p` gives. -/
theorem ptrAlu_sub {b : Block} {o : Obj} {p q : PTR Expr} (hchecked : p.checkedNull.isSome)
    (hptype : p.ptrType = .PKT ∨ p.ptrType = .PKT_END) (hqtype : q.ptrType = .PKT)
    (hbase : p.baseId = q.baseId) {n k : Nat} {data a c : BitVec 64}
    (hp : p.Follows R blk st m n data a) (hq : q.Follows R blk st m k data c) (idx : Nat) :
    ∃ e, ptrAlu idx .SUB b o p (some (.ptr q)) = .ok (.fresh idx e, b) ∧
      Operand R blk st m 64 e (if p.ptrType = .PKT_END then
          if q.varOff = none ∧ q.off = 0 then st.pktLen.eval m
          else ((st.pktLen.eval m - (c - data)).setWidth 32).setWidth 64
        else BitVec.ofInt 64 (p.tracked n) - BitVec.ofInt 64 (q.tracked k)) := by
  have hnone : p.checkedNull.isNone = false := by
    cases hnull : p.checkedNull with
    | none => rw [hnull] at hchecked; cases hchecked
    | some v => rfl
  rcases hptype with hptype | hptype
  · obtain ⟨e, he, hoperand⟩ := operand_sub_b8 (operand_totalOffset hp.varOffset)
      (operand_totalOffset hq.varOffset) idx
    refine ⟨e, ?_, ?_⟩
    · simp [ptrAlu, hnone, hptype, pktAlu, Expr.ptr?, hqtype, hbase, he]
      rfl
    · rw [if_neg (by rw [hptype]; nofun)]
      exact hoperand
  · obtain ⟨e, he, hoperand⟩ := operand_sub_end hqtype hq p.baseId idx
    refine ⟨e, ?_, ?_⟩
    · simp [ptrAlu, hnone, hptype, pktEndAlu, Expr.ptr?, hqtype, ← hbase, he]
      rfl
    · rw [if_pos hptype]
      exact hoperand

theorem ofInt_eq_iff {w : Nat} (x y : Int) :
    BitVec.ofInt w x = BitVec.ofInt w y ↔ (x - y) % 2 ^ w = 0 := by
  rw [← BitVec.toNat_inj, ← Int.emod_eq_emod_iff_emod_sub_eq_zero, emod_eq_toNat x, emod_eq_toNat y,
    Int.natCast_inj]

/-- The 64-bit difference from the end of the packet, of which the low half is kept. -/
theorem low_difference_iff (len x y : BitVec 64) :
    ((len - y).setWidth 32).setWidth 64 = len + x - y ↔
      (len + x - y).toNat < 2 ^ 32 ∧ x.toNat % 2 ^ 32 = 0 := by
  have hlen := len.isLt
  have hx := x.isLt
  have hy := y.isLt
  rw [← BitVec.toNat_inj, toNat_setWidth_setWidth]
  simp only [BitVec.toNat_setWidth, BitVec.toNat_sub, BitVec.toNat_add]
  omega

/-- The tracked offsets of two packet pointers differ as the registers do exactly when both
lose the same upper half. -/
theorem tracked_sub_iff {p q : PTR Expr} {n k : Nat} {data a c : BitVec 64}
    (hptype : p.ptrType = .PKT) (hqtype : q.ptrType = .PKT) (hp : p.Follows R blk st m n data a)
    (hq : q.Follows R blk st m k data c) :
    BitVec.ofInt 64 (p.tracked n) - BitVec.ofInt 64 (q.tracked k) = a - c ↔
      (p.dropped n (a - data) - q.dropped k (c - data)) % 2 ^ 32 = 0 := by
  have hpsplit := hp.split
  have hqsplit := hq.split
  rw [origin_pkt hptype] at hpsplit
  rw [origin_pkt hqtype] at hqsplit
  have hregs : a - c = (a - data) - (c - data) := by
    apply BitVec.eq_of_toNat_eq
    simp only [BitVec.toNat_sub]
    omega
  rw [hregs]
  generalize p.dropped n (a - data) = u at hpsplit ⊢
  generalize q.dropped k (c - data) = v at hqsplit ⊢
  rw [hpsplit, hqsplit, ← ofInt_sub, ← ofInt_sub, ofInt_eq_iff]
  omega

/-- The value is the difference of the registers exactly when the condition holds. -/
theorem difference_eq_iff {p q : PTR Expr} {n k : Nat} {data a c : BitVec 64}
    (hchecked : p.checkedNull.isSome) (hptype : p.ptrType = .PKT ∨ p.ptrType = .PKT_END)
    (hqtype : q.ptrType = .PKT) (hp : p.Follows R blk st m n data a)
    (hq : q.Follows R blk st m k data c) :
    ((if p.ptrType = .PKT_END then
          if q.varOff = none ∧ q.off = 0 then st.pktLen.eval m
          else ((st.pktLen.eval m - (c - data)).setWidth 32).setWidth 64
        else BitVec.ofInt 64 (p.tracked n) - BitVec.ofInt 64 (q.tracked k)) = a - c) ↔
      DifferenceExact st m p q n k data a c := by
  unfold DifferenceExact
  simp only [hchecked, true_and]
  rcases hptype with hptype | hptype
  · have hnot : p.ptrType ≠ .PKT_END := by
      rw [hptype]
      nofun
    rw [if_neg hnot, if_neg hnot]
    exact tracked_sub_iff hptype hqtype hp hq
  · have horigin : p.origin st m data = data + st.pktLen.eval m := if_pos hptype
    rw [if_pos hptype, if_pos hptype, horigin]
    split
    · rename_i hstart
      have hc : c = data := by
        have hzero := hq.constant hstart.1
        rw [origin_pkt hqtype, hstart.2] at hzero
        exact sub_eq_zero.mp hzero
      rw [hc]
      exact eq_comm.trans sub_eq_iff_eq_add'
    · have hregs : a - c = st.pktLen.eval m + (a - (data + st.pktLen.eval m)) - (c - data) := by
        apply BitVec.eq_of_toNat_eq
        simp only [BitVec.toNat_sub, BitVec.toNat_add]
        omega
      rw [hregs]
      exact low_difference_iff (st.pktLen.eval m) (a - (data + st.pktLen.eval m)) (c - data)

/-- Subtracting a packet pointer from another one, or from the end of the packet, gives
the 64-bit difference of the machine's registers exactly when the first pointer is decided
and either both tracked offsets lose the same upper half, in particular none; or, for the
end of the packet, it is unmoved and the pointer is the start of the packet, or the
difference is a 32-bit number and the end moved by whole multiples of `2 ^ 32`. -/
theorem pointer_difference_iff {b : Block} {i : Instr} (hclass : i.opcodeClass = .ALU64)
    (hcode : i.aluCode = .SUB) (hsrc : i.opcodeS = .reg) {p q : PTR Expr}
    (hdst : b.reg i.dstReg = some (.ptr p)) (hreg : b.reg i.srcReg = some (.ptr q))
    (hptype : p.ptrType = .PKT ∨ p.ptrType = .PKT_END) (hqtype : q.ptrType = .PKT)
    (hbase : p.baseId = q.baseId) {n k : Nat} {data a c : BitVec 64}
    (hp : p.Follows R blk st m n data a) (hq : q.Follows R blk st m k data c) (idx : Nat) :
    ∃ b' e, trackAlu idx i b = .ok b' ∧ b'.reg i.dstReg = some e ∧
      ((∃ t, exprToZ3 R blk st e = .ok t ∧ BitVec.ofNat 64 (t.toNat m) = a - c) ↔
        DifferenceExact st m p q n k data a c) := by
  obtain ⟨⟨org, -⟩, ho, rfl⟩ := Option.map_eq_some_iff.mp hdst
  have hresult : ∀ e b', ptrAlu idx .SUB b ⟨org, .ptr p⟩ p (some (.ptr q)) = .ok (e, b') →
      trackAlu idx i b = .ok (b'.setReg i.dstReg (some e)) := by
    intro e b' hrun
    have hsource : (aluSource idx i b).map (·.val) = some (.ptr q) := by
      simp only [aluSource, hsrc]
      exact hreg
    have hres : aluResult idx i b = .ok (some e, b') := by
      simp only [aluResult, hclass, hcode, ho, hsource, hrun]
      rfl
    rw [trackAlu, hres]
    rfl
  cases hchecked : p.checkedNull with
  | none =>
      -- the instruction is passed over, and the register keeps the pointer
      refine ⟨_, .ptr p, hresult ⟨org, .ptr p⟩ b (by simp [ptrAlu, hchecked]; rfl), ?_, ?_⟩
      · simp [Block.reg, Block.setReg]
      · constructor
        · rintro ⟨t, ht, -⟩
          cases ht
        · rintro ⟨hsome, -⟩
          rw [hchecked] at hsome
          cases hsome
  | some v =>
      have hsome : p.checkedNull.isSome := by rw [hchecked]; rfl
      obtain ⟨e, he, hoperand⟩ := ptrAlu_sub (o := ⟨org, .ptr p⟩) (b := b) hsome hptype hqtype hbase
        hp hq idx
      refine ⟨_, e, hresult _ b he, ?_, ?_⟩
      · simp [Block.reg, Block.setReg, Obj.fresh]
      · rw [← difference_eq_iff hsome hptype hqtype hp hq]
        obtain ⟨t, ht, hval⟩ := hoperand.lowers
        constructor
        · rintro ⟨t', ht', hval'⟩
          obtain rfl := Except.ok.inj (ht.symm.trans ht')
          exact hval.symm.trans hval'
        · intro heq
          exact ⟨t, ht, hval.trans heq⟩

end Difference

/-- `r1 -= r2`. -/
def subPointers : Instr where
  opcodeClass := .ALU64
  opcodeS := .reg
  aluCode := .SUB
  jmpCode := .JA
  opcodeSz := .DW
  opcodeMode := .MEM
  srcReg := 2
  dstReg := 1
  offset := 0
  imm := 0
  wideInstr := false
  nextImm := 0
  reloc := none

/-- The end of the packet. -/
def dataEnd : PTR Expr := { ptrType := .PKT_END, id := 4, baseId := some (-1) }

/-- The first byte after an Ethernet header. -/
def pastEthernet : PTR Expr := { ptrType := .PKT, off := 14, id := 3, baseId := some (-1) }

/-- The start of a block with two pointers in `r1` and `r2`. -/
def pointersBlock (p q : PTR Expr) : Block :=
  { num := 0, start := 0, «end» := 0
    regs := fun r =>
      if r = 1 then some ⟨.init 1, .ptr p⟩ else if r = 2 then some ⟨.init 2, .ptr q⟩ else none }

/-- A packet of ten bytes. -/
def tenBytes : ZModel := Model.ofNats fun v => if v = .pktLen then some 10 else none

theorem follows_dataEnd (m : ZModel) (data : BitVec 64) :
    dataEnd.Follows none none (makeInitState []) m 0 data
      (data + (makeInitState []).pktLen.eval m) := by
  refine ⟨.none rfl, fun _ => ?_, nofun⟩
  exact BitVec.sub_self _

theorem follows_pastEthernet (m : ZModel) (data : BitVec 64) :
    pastEthernet.Follows none none (makeInitState []) m 0 data (data + 14#64) := by
  have hstart : PTR.Follows none none (makeInitState []) m { pastEthernet with off := 0 } 0 data data :=
    follows_start rfl rfl rfl
  exact hstart.move pastEthernet 14 rfl rfl rfl

/-- In a packet of ten bytes the end minus the pointer past the Ethernet header is -4,
but the register is `2 ^ 32 - 4`. -/
theorem pointer_beyond_end :
    (∃ a c : BitVec 64, dataEnd.Follows none none (makeInitState []) tenBytes 0 0x1000#64 a ∧
      pastEthernet.Follows none none (makeInitState []) tenBytes 0 0x1000#64 c ∧
      a - c = BitVec.ofInt 64 (-4)) ∧
    ∃ b' e t, trackAlu 0 subPointers (pointersBlock dataEnd pastEthernet) = .ok b' ∧
      b'.reg 1 = some e ∧
      exprToZ3 none none (makeInitState []) e = .ok t ∧
      BitVec.ofNat 64 (t.toNat tenBytes) = 4294967292#64 :=
  ⟨⟨_, _, follows_dataEnd tenBytes 0x1000#64, follows_pastEthernet tenBytes 0x1000#64, by decide⟩,
    _, _, _, rfl, rfl, rfl, by decide⟩

/-- `r1 += r3`. -/
def addScalar : Instr := { subPointers with aluCode := .ADD, srcReg := 3 }

/-- Two pointers past the Ethernet header and the length of the IP header, a packet byte. -/
def headerBlock : Block :=
  (pointersBlock pastEthernet pastEthernet).setReg 3 (some ⟨.instr 0 0, .pktVal 0 0 14 none 1⟩)

/-- A packet of which every byte is 20. -/
def twenties : ZModel := fun
  | .array _ (.bv 8), _ => fun _ => 20
  | s, _ => s.zero

/-- `r1 += r3; r1 -= r2` leaves the byte that was added. -/
theorem pointer_difference_iff_header :
    ∃ b' b'' e t, trackAlu 1 addScalar headerBlock = .ok b' ∧
      trackAlu 2 subPointers b' = .ok b'' ∧ b''.reg 1 = some e ∧
      exprToZ3 none none (makeInitState []) e = .ok t ∧
      BitVec.ofNat 64 (t.toNat twenties) = 20#64 := by
  have hbyte : Operand none none (makeInitState []) twenties 64 (.pktVal 0 0 14 none 1) 20#64 :=
    ⟨⟨_, rfl, by decide⟩, nofun⟩
  have hsource : (aluSource 1 addScalar headerBlock).map (·.val) = some (.pktVal 0 0 14 none 1) := rfl
  obtain ⟨b', p', n, hadd, hreg, hpkt, hbase, hchecked, hfollows⟩ :=
    follows_trackAlu (i := addScalar) rfl (.inl rfl) rfl rfl rfl
      (follows_pastEthernet twenties 0x1000#64) hsource rfl hbyte
  obtain rfl : _ = b' := Except.ok.inj hadd
  have hoff : p'.off = 14 := by
    obtain rfl : _ = p' := Expr.ptr.inj (Option.some.inj hreg)
    rfl
  obtain ⟨b'', e, hsub, he, hiff⟩ := pointer_difference_iff (i := subPointers) rfl rfl rfl hreg rfl
    (.inl hpkt) rfl (hbase.trans rfl) hfollows (follows_pastEthernet twenties 0x1000#64) 2
  have hexact : DifferenceExact (makeInitState []) twenties p' pastEthernet n 0 0x1000#64 0x1022#64
      0x100e#64 := by
    refine ⟨by rw [hchecked]; rfl, ?_⟩
    rw [if_neg (by rw [hpkt]; nofun)]
    simp [PTR.dropped, hoff, pastEthernet]
  obtain ⟨t, ht, hvalue⟩ := hiff.mpr hexact
  exact ⟨_, b'', e, t, hadd, hsub, he, ht, hvalue.trans (by decide)⟩

end Hornet
