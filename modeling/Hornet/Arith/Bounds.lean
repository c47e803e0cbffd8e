import Hornet.Arith.Jumps
import Hornet.Arith.PtrDiff
import Hornet.Track.Tracker

/-!
The bounds checks of a packet: a comparison of a pointer into the packet with its end
is recorded as one of the pointer's offset with the length, the code mirrored when the
pointer is the source. The class of the jump is not recorded: a 32-bit comparison is
taken for the one of the whole registers.
-/

namespace Hornet

open Smt

/-- The codes of a bounds check. -/
def IsBoundsCheck (code : JmpOp) : Prop :=
  code = .JGT ∨ code = .JGE ∨ code = .JLT ∨ code = .JLE

/-- A comparison of the registers that hold the packet pointer `p` and `data_end`, or of
their low halves, with `p` as the destination or as the source. -/
structure ComparesEnd (instr : Instr) (b : Block) (p q : PTR Expr) (pktFirst : Bool) : Prop where
  jump : instr.opcodeClass = .JMP ∨ instr.opcodeClass = .JMP32
  code : IsBoundsCheck instr.jmpCode
  dst : b.reg instr.dstReg = some (.ptr (if pktFirst then p else q))
  src : branchSource instr b = some (.ptr (if pktFirst then q else p))
  pkt : p.ptrType = .PKT
  dataEnd : q.ptrType = .PKT_END ∧ q.off = 0 ∧ q.varOff = none
  base : p.baseId = q.baseId

/-- The offset of the pointer is the distance `t` from the start of the packet, when its
variable part is `n`: the constant, or the sum in 32 bits of a variable part that is of 32
bits or makes the machine's sum `t` as well. -/
structure PTR.Distance (p : PTR Expr) (n t : Nat) : Prop where
  range : t < 2 ^ 32
  constant : p.varOff = none → p.off = t
  sum : p.varOff.isSome → (n + p.off) % 2 ^ 32 = t
  part : p.varOff.isSome → n < 2 ^ 32 ∨ (n < 2 ^ 64 ∧ (n + p.off) % 2 ^ 64 = t)

section Recorded

variable {instr : Instr} {b b' : Block} {p q : PTR Expr} {pktFirst : Bool}

/-- What the tracker records of a bounds check. -/
theorem trackBranch_bounds (h : ComparesEnd instr b p q pktFirst)
    (hstep : trackBranch instr b = .ok b') :
    ∃ code, (if pktFirst then some instr.jmpCode else mirrorJmpCode instr.jmpCode) = some code ∧
      b'.cond = some (.cmp code (some p.totalOffset) (some (.pktLen 4 p.baseId)) false) := by
  obtain ⟨-, hcode, hdst, hsrc, hpkt, ⟨hend, -⟩, hbase⟩ := h
  have hnoRet : ∀ r : PTR Expr, adjustRetIn (.ptr r) = none := fun _ => rfl
  have hrun : trackBranch.compareWith instr b instr.jmpCode
      (some (.ptr (if pktFirst then p else q))) (some (.ptr (if pktFirst then q else p))) =
      .ok b' := by
    unfold trackBranch at hstep
    rw [hdst, hsrc] at hstep
    dsimp only [Option.bind_some] at hstep
    rw [hnoRet, hnoRet] at hstep
    rcases hcode with hcode | hcode | hcode | hcode <;> rw [hcode] at hstep ⊢ <;> exact hstep
  have hcompare : ∀ r s : PTR Expr, trackBranch.compareWith instr b instr.jmpCode (some (.ptr r))
      (some (.ptr s)) = .ok b' →
      compareBranch.compare b instr.jmpCode (some (.ptr r)) (some (.ptr s))
        (instr.opcodeClass = .JMP32) = .ok b' := by
    intro r s hrs
    have hbranch : compareBranch b instr.jmpCode (some (.ptr r)) (some (.ptr s))
        (instr.opcodeClass = .JMP32) = .ok b' := hrs
    unfold compareBranch at hbranch
    dsimp only at hbranch
    split at hbranch
    · cases hbranch
    · exact hbranch
  have hsize : ∀ code, pktSizeBranch b code p = .ok b' →
      b'.cond = some (.cmp code (some p.totalOffset) (some (.pktLen 4 p.baseId)) false) := by
    intro code hsize
    unfold pktSizeBranch at hsize
    cases code with
    | JGT | JGE | JLT | JLE =>
        cases hsize
        rfl
    | _ => cases hsize
  cases pktFirst with
  | true =>
      have hcheck : pktSizeCheck (some (.ptr p)) (some (.ptr q)) = true := by
        simp [pktSizeCheck, Expr.ptr?, hpkt, hend, hbase]
      have h := hcompare p q hrun
      unfold compareBranch.compare at h
      simp only [hcheck, hend, if_true, reduceCtorEq, if_false] at h
      exact ⟨instr.jmpCode, rfl, hsize _ h⟩
  | false =>
      have hcheck : pktSizeCheck (some (.ptr q)) (some (.ptr p)) = true := by
        simp [pktSizeCheck, Expr.ptr?, hpkt, hend, hbase]
      have h := hcompare q p hrun
      unfold compareBranch.compare at h
      simp only [hcheck, hpkt, if_true] at h
      cases hmirror : mirrorJmpCode instr.jmpCode with
      | none =>
          rw [hmirror] at h
          cases h
      | some code =>
          rw [hmirror] at h
          exact ⟨code, rfl, hsize _ h⟩

/-- The comparison seen from the other operand. -/
theorem compare_mirror {code code' : JmpOp} (h : mirrorJmpCode code = some code') {w : Nat}
    (x y : BitVec w) : Isa.compare code' x y = Isa.compare code y x := by
  cases code with
  | JGT | JGE | JLT | JLE =>
      cases h
      rfl
  | _ => cases h

end Recorded

section Meaning

variable {maps : List MapInfo} {R : Option (Reads maps)} {blk : Option Nat} {st : Z3State maps}
  {m : ZModel} {p : PTR Expr} {n t : Nat}

/-- The recorded offset has a term whose value is the distance. -/
theorem toNat_totalOffset (hn : p.VarOffset R blk st m n) (ht : p.Distance n t) :
    ∃ d, exprToZ3 R blk st p.totalOffset = .ok d ∧ d.toNat m = t := by
  have hrange := ht.range
  cases hn with
  | none hvar =>
      have htotal : p.totalOffset = .num p.off 8 (-1) := by simp [PTR.totalOffset, hvar]
      have hoff : p.off = t := ht.constant hvar
      refine ⟨⟨64, bvVal p.off 64⟩, by rw [htotal]; rfl, ?_⟩
      show (BitVec.ofInt 64 p.off).toNat = t
      rw [hoff, BitVec.ofInt_natCast, BitVec.toNat_ofNat]
      omega
  | @some v tv hvar hnum hlower =>
      have hsome : p.varOff.isSome := by rw [hvar]; rfl
      have hsum := ht.sum hsome
      have hpart := ht.part hsome
      rcases totalOffset_cases hvar hnum with ⟨hoff, htotal⟩ | ⟨-, htotal⟩
      · refine ⟨tv, by rw [htotal]; exact hlower, ?_⟩
        rw [hoff] at hsum hpart
        omega
      · obtain ⟨d, hd, -, hvalue⟩ := aluBinary_b4 m (show AluOp.ADD.isBinary from rfl) 0 tv ⟨64, bvVal p.off 64⟩
        refine ⟨d, ?_, ?_⟩
        · rw [htotal]
          unfold exprToZ3
          rw [someToZ3_ok hlower]
          exact hd
        · rw [hvalue]
          simp only [Isa.binary, BitVec.toNat_add, BitVec.toNat_ofNat, Bv.toNat_mk, eval_bvVal,
            BitVec.toNat_ofInt]
          omega

/-- Two distances compare as the addresses that they lead to. -/
theorem compare_addresses {code : JmpOp} (hcode : IsBoundsCheck code) {w data x y : Nat}
    (hx : x < 2 ^ w) (hy : y < 2 ^ w) (hx' : data + x < 2 ^ 64) (hy' : data + y < 2 ^ 64) :
    Isa.compare code (BitVec.ofNat w x) (BitVec.ofNat w y) =
      Isa.compare code (BitVec.ofNat 64 (data + x)) (BitVec.ofNat 64 (data + y)) := by
  have hnat : ∀ {v a : Nat}, a < 2 ^ v → (BitVec.ofNat v a).toNat = a := by
    intro v a ha
    rw [BitVec.toNat_ofNat, Nat.mod_eq_of_lt ha]
  rcases hcode with rfl | rfl | rfl | rfl <;>
    simp only [Isa.compare, BitVec.ult, BitVec.ule, hnat hx, hnat hy, hnat hx', hnat hy',
      Nat.add_lt_add_iff_left, Nat.add_le_add_iff_left]

theorem isBoundsCheck_mirror {code code' : JmpOp} (h : mirrorJmpCode code = some code') :
    IsBoundsCheck code' := by
  unfold IsBoundsCheck
  cases code with
  | JGT | JGE | JLT | JLE =>
      cases h
      simp
  | _ => cases h

/-- The condition recorded of a bounds check is true exactly when the address of the
pointer, `t` bytes after the start of the packet, compares with the address of the packet's
end as the code asks, in the order of the instruction. -/
theorem eval_boundsCheck {instr : Instr} {b b' : Block} {q : PTR Expr} {pktFirst : Bool}
    (h : ComparesEnd instr b p q pktFirst) (hstep : trackBranch instr b = .ok b')
    (hn : p.VarOffset R blk st m n) (ht : p.Distance n t) {data : Nat} (haddr : data + t < 2 ^ 64)
    (hend : data + (st.pktLen.eval m).toNat < 2 ^ 64) :
    ∃ c g, b'.cond = some c ∧ c.toZ3 R blk st = .ok g ∧
      g.eval m = Isa.taken false instr.jmpCode
        (BitVec.ofNat 64 (data + if pktFirst then t else (st.pktLen.eval m).toNat))
        (BitVec.ofNat 64 (data + if pktFirst then (st.pktLen.eval m).toNat else t)) := by
  obtain ⟨code, hmirror, hcond⟩ := trackBranch_bounds h hstep
  have hcode : IsBoundsCheck code := by
    cases pktFirst with
    | true =>
        cases hmirror
        exact h.code
    | false => exact isBoundsCheck_mirror hmirror
  have hconditional : Isa.isConditional code = true := by
    rcases hcode with rfl | rfl | rfl | rfl <;> rfl
  obtain ⟨d, hd, hvalue⟩ := toNat_totalOffset hn ht
  have hlen : exprToZ3 R blk st (.pktLen 4 p.baseId) = .ok ⟨64, st.pktLen⟩ := by
    unfold exprToZ3
    rfl
  obtain ⟨c, width, hc, hwidth, heval⟩ := eval_cmpTerm m hconditional false d ⟨64, st.pktLen⟩
  refine ⟨_, .term c, hcond, ?_, ?_⟩
  · rw [toZ3_cmp hd hlen, hc]
    rfl
  · have hwide : 64 ≤ width := by
      rw [hwidth, if_neg Bool.false_ne_true]
      split
      · exact le_max_right _ _
      · exact le_max_right _ _
    have hpow : 2 ^ 64 ≤ 2 ^ width := Nat.pow_le_pow_right (by decide) hwide
    have hcompare : Isa.compare code (BitVec.ofNat width t)
        (BitVec.ofNat width (st.pktLen.eval m).toNat) = Isa.compare code
          (BitVec.ofNat 64 (data + t)) (BitVec.ofNat 64 (data + (st.pktLen.eval m).toNat)) :=
      compare_addresses hcode (by omega) (by omega) haddr hend
    show c.eval m = _
    rw [heval, hvalue]
    refine hcompare.trans ?_
    cases pktFirst with
    | true =>
        cases hmirror
        rfl
    | false => exact compare_mirror hmirror _ _

/-- The upper halves of two addresses are equal, or the lower ones are in the same order. -/
def LowOrder (x y : Nat) : Prop :=
  x / 2 ^ 32 = y / 2 ^ 32 ∨ (x / 2 ^ 32 < y / 2 ^ 32 ↔ x % 2 ^ 32 < y % 2 ^ 32)

/-- The order of two addresses that a code asks for, seen in their low halves. -/
def LowKept (code : JmpOp) (x y : Nat) : Prop :=
  match code with
  | .JLT | .JGE => LowOrder x y
  | _ => LowOrder y x

theorem lowOrder_iff (x y : Nat) : (x % 2 ^ 32 < y % 2 ^ 32 ↔ x < y) ↔ LowOrder x y := by
  unfold LowOrder
  omega

/-- The comparison of the low halves of two addresses is the one of the addresses exactly
when the low halves keep the order that the code asks for. -/
theorem taken_jmp32_iff {code : JmpOp} (hcode : IsBoundsCheck code) {x y : Nat} (hx : x < 2 ^ 64)
    (hy : y < 2 ^ 64) :
    Isa.taken false code (BitVec.ofNat 64 x) (BitVec.ofNat 64 y) =
        Isa.taken true code (BitVec.ofNat 64 x) (BitVec.ofNat 64 y) ↔ LowKept code x y := by
  have hlow : ∀ {a : Nat}, a < 2 ^ 64 → ((BitVec.ofNat 64 a).setWidth 32).toNat = a % 2 ^ 32 := by
    intro a ha
    rw [BitVec.toNat_setWidth, BitVec.toNat_ofNat, Nat.mod_eq_of_lt ha]
  have hnat : ∀ {a : Nat}, a < 2 ^ 64 → (BitVec.ofNat 64 a).toNat = a := by
    intro a ha
    rw [BitVec.toNat_ofNat, Nat.mod_eq_of_lt ha]
  have hless : ∀ a b c d : Nat, (decide (a < b) = decide (c < d)) ↔ (c < d ↔ a < b) := by
    intro a b c d
    rw [decide_eq_decide]
    exact iff_comm
  have hatMost : ∀ a b c d : Nat, (decide (a ≤ b) = decide (c ≤ d)) ↔ (d < c ↔ b < a) := by
    intro a b c d
    rw [decide_eq_decide]
    omega
  rcases hcode with rfl | rfl | rfl | rfl <;>
    simp only [Isa.taken, Isa.compare, BitVec.ult, BitVec.ule, hlow hx, hlow hy, hnat hx, hnat hy,
      if_true, Bool.false_eq_true, if_false, hless, hatMost, lowOrder_iff, LowKept]

/-- The condition recorded of a bounds check is the machine's comparison of the address of
the pointer, `t` bytes after the start of the packet, with the address of the packet's end
exactly when whole registers are compared, or their low halves keep the order that the code
asks for. -/
theorem bounds_check_compares_iff {instr : Instr} {b b' : Block} {q : PTR Expr} {pktFirst : Bool}
    (h : ComparesEnd instr b p q pktFirst) (hstep : trackBranch instr b = .ok b')
    (hn : p.VarOffset R blk st m n) (ht : p.Distance n t) {data : Nat} (haddr : data + t < 2 ^ 64)
    (hend : data + (st.pktLen.eval m).toNat < 2 ^ 64) :
    let dst := data + if pktFirst then t else (st.pktLen.eval m).toNat
    let src := data + if pktFirst then (st.pktLen.eval m).toNat else t
    ∃ c g, b'.cond = some c ∧ c.toZ3 R blk st = .ok g ∧
      (g.eval m = Isa.taken (instr.opcodeClass = .JMP32) instr.jmpCode (BitVec.ofNat 64 dst)
          (BitVec.ofNat 64 src) ↔
        instr.opcodeClass = .JMP ∨ LowKept instr.jmpCode dst src) := by
  intro dst src
  obtain ⟨c, g, hcond, hg, heval⟩ := eval_boundsCheck h hstep hn ht haddr hend
  refine ⟨c, g, hcond, hg, ?_⟩
  rw [heval]
  rcases h.jump with hjump | hjump
  · simp [hjump, dst, src]
  · have hdst : dst < 2 ^ 64 := by
      cases pktFirst with
      | true => exact haddr
      | false => exact hend
    have hsrc : src < 2 ^ 64 := by
      cases pktFirst with
      | true => exact hend
      | false => exact haddr
    simp only [hjump, decide_true, reduceCtorEq, false_or]
    exact taken_jmp32_iff h.code hdst hsrc

end Meaning

/-- `if (data_end < p) goto ..`, on whole registers or on their low halves. -/
def endBelow (opcodeClass : OpClass) : Instr where
  opcodeClass := opcodeClass
  opcodeS := .reg
  aluCode := .ADD
  jmpCode := .JLT
  opcodeSz := .DW
  opcodeMode := .MEM
  srcReg := 2
  dstReg := 1
  offset := 4
  imm := 0
  wideInstr := false
  nextImm := 0
  reloc := none

/-- The jump compares the end of the packet with the pointer past the Ethernet header. -/
theorem comparesEnd_endBelow :
    ComparesEnd (endBelow .JMP32) (pointersBlock dataEnd pastEthernet) pastEthernet dataEnd false :=
  ⟨.inr rfl, .inr (.inr (.inl rfl)), rfl, rfl, rfl, ⟨rfl, rfl, rfl⟩, rfl⟩

theorem distance_pastEthernet : pastEthernet.Distance 0 14 :=
  ⟨by decide, fun _ => rfl, nofun, nofun⟩

/-- At the address `0x1000` a packet of ten bytes has no Ethernet header, in the low halves
of the registers as well. -/
theorem bounds_check_compares_iff_header :
    ∃ b' c g, trackBranch (endBelow .JMP32) (pointersBlock dataEnd pastEthernet) = .ok b' ∧
      b'.cond = some c ∧ c.toZ3 none none (makeInitState []) = .ok g ∧
      g.eval tenBytes = Isa.taken true .JLT 0x100a#64 0x100e#64 ∧ g.eval tenBytes = true := by
  obtain ⟨b', hstep⟩ : ∃ b',
      trackBranch (endBelow .JMP32) (pointersBlock dataEnd pastEthernet) = .ok b' := ⟨_, rfl⟩
  have hvar : pastEthernet.VarOffset none none (makeInitState []) tenBytes 0 := .none rfl
  have haddr : 0x1000 + 14 < 2 ^ 64 := by decide
  have hend : 0x1000 + ((makeInitState []).pktLen.eval tenBytes).toNat < 2 ^ 64 := by decide
  obtain ⟨c, g, hcond, hg, hiff⟩ :=
    bounds_check_compares_iff comparesEnd_endBelow hstep hvar distance_pastEthernet haddr hend
  have htaken := hiff.mpr (.inr (.inl rfl))
  exact ⟨b', c, g, hstep, hcond, hg, htaken, htaken.trans (by decide)⟩

/-- A packet of ten bytes that ends just before a multiple of `2 ^ 32`: the pointer lies
behind the end, and the condition says so, but the low half of its address is below. -/
theorem bounds_check_low_halves :
    ∃ b' c g, trackBranch (endBelow .JMP32) (pointersBlock dataEnd pastEthernet) = .ok b' ∧
      b'.cond = some c ∧ c.toZ3 none none (makeInitState []) = .ok g ∧
      g.eval tenBytes = true ∧
      Isa.taken true .JLT (BitVec.ofNat 64 (0xfffffff2 + 10)) (BitVec.ofNat 64 (0xfffffff2 + 14)) =
        false :=
  ⟨_, _, _, rfl, rfl, rfl, by decide, by decide⟩

end Hornet
