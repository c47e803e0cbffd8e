import Hornet.Lib.Fold
import Hornet.Arith.Jumps
import Hornet.Track.Tracker

/-!
Tests of an undecided pointer against null. What the edges of the branch state and
what its condition says are compared with the machine's jump on the pointer's value.
-/

namespace Hornet

open Smt

section NullTest

variable {maps : List MapInfo} (R : Option (Reads maps)) (blk : Option Nat) (st : Z3State maps)
  (m : ZModel)

/-- The value that is zero exactly when the pointer is null: its null phi, or the
outcome of the lookup that it is the result of. -/
def PTR.nullIndicator (p : PTR Expr) : Option Expr :=
  match p.nullPhi with
  | some phi => some phi
  | none =>
      if p.ptrType = .MAP_VALUE then some (.lookupHit p.mapId p.mapKey p.mapKeyId) else none

/-- `v` can be the machine's value of the pointer. -/
def PTR.HasValue (p : PTR Expr) (v : BitVec 64) : Prop :=
  ∀ e, p.nullIndicator = some e →
    ∃ t, exprToZ3 R blk st e = .ok t ∧ (t.toNat m = 0 ↔ v = 0#64)

/-- A branch that compares `p` with the constant zero, and whether `p` is the
destination. -/
inductive ComparesNull (i : Instr) (b : Block) (p : PTR Expr) : Bool → Prop
  | dst (hdst : b.reg i.dstReg = some (.ptr p))
      (hsrc : (branchSource i b).bind Expr.num? = some 0) : ComparesNull i b p true
  | src (hdst : (b.reg i.dstReg).bind Expr.num? = some 0)
      (hsrc : branchSource i b = some (.ptr p)) : ComparesNull i b p false

/-- Whether the machine takes the branch when the pointer's value is `v`. -/
def nullTestTaken (i : Instr) (isDst : Bool) (v : BitVec 64) : Bool :=
  Isa.taken (i.opcodeClass = .JMP32) i.jmpCode (if isDst then v else 0#64)
    (if isDst then 0#64 else v)

/-- The edges state null where a null pointer leads, and the condition, which is
there whenever something says when the pointer is null, is the machine's. -/
structure NullTestRight (i : Instr) (p : PTR Expr) (isDst : Bool) (v : BitVec 64) (b : Block) :
    Prop where
  taken : b.condT = some (.ptr ⟨nullFactId p, nullTestTaken i isDst 0#64⟩)
  fall : b.condF = some (.ptr ⟨nullFactId p, !nullTestTaken i isDst 0#64⟩)
  cond : match b.cond with
    | none => p.nullIndicator = none
    | some c => ∃ g, c.toZ3 R blk st = .ok g ∧ g.eval m = nullTestTaken i isDst v

variable {R blk st m} {i : Instr} {b : Block} {p : PTR Expr} {v : BitVec 64}

/-- A test for a miss is the negation of the test for a hit. -/
theorem containTerm_result {mapId : Nat} {key : ZBv} {keyId : Option Int} {hit : ZTerm .bool}
    (h : containTerm R blk st mapId key keyId true = .ok hit) (result : Bool) :
    ∃ t, containTerm R blk st mapId key keyId result = .ok t ∧
      t.eval m = (hit.eval m == result) := by
  unfold containTerm at h ⊢
  split at h
  · rename_i harray
    obtain rfl := Except.ok.inj h
    rw [if_pos harray]
    cases result with
    | true => exact ⟨_, rfl, by simp⟩
    | false => exact ⟨_, rfl, by simp⟩
  · rename_i harray
    rw [if_neg harray]
    cases R with
    | none =>
        obtain rfl := Except.ok.inj h
        exact ⟨_, rfl, by simp⟩
    | some R =>
        obtain ⟨present, hpresent, h⟩ := Lib.bind_eq_ok.mp h
        obtain rfl := Except.ok.inj h
        refine ⟨.iff present (.boolVal result), ?_, by simp⟩
        simp only [hpresent]
        rfl

/-- A comparison for equality with null, `x` saying whether the pointer is null. -/
theorem compare_null {code : JmpOp} (hcode : code = .JEQ ∨ code = .JNE) {x : Bool}
    (hx : x = true ↔ v = 0#64) :
    Isa.compare code v 0#64 = if code = .JEQ then x else !x := by
  have heq : (v == 0#64) = x := by
    rw [Bool.eq_iff_iff, hx, beq_iff_eq]
  rcases hcode with rfl | rfl
  · exact heq
  · exact congrArg not heq

/-- The comparison of a null phi with zero. -/
theorem phi_cond {code : JmpOp} (hcode : code = .JEQ ∨ code = .JNE) {phi : Expr} {t : ZBv}
    (ht : exprToZ3 R blk st phi = .ok t) (hzero : t.toNat m = 0 ↔ v = 0#64) :
    ∃ g, Condition.toZ3 R blk st (.cmp code (some phi) (some (.num 0 1 (-1))) false) = .ok g ∧
      g.eval m = Isa.compare code v 0#64 := by
  have hs : exprToZ3 R blk st (.num 0 1 (-1)) = .ok ⟨8, bvVal 0 8⟩ := rfl
  have hconditional : Isa.isConditional code = true := by
    rcases hcode with rfl | rfl <;> rfl
  obtain ⟨c, width, hc, hwidth, heval⟩ := eval_cmpTerm m hconditional false t ⟨8, bvVal 0 8⟩
  have hle : t.size ≤ width := by
    rw [hwidth, if_neg Bool.false_ne_true]
    split <;> omega
  have hlt : t.toNat m < 2 ^ width := toNat_lt_of_size m hle
  have hx : (BitVec.ofNat width (t.toNat m) == BitVec.ofNat width 0) = true ↔ v = 0#64 := by
    rw [beq_iff_eq, ← BitVec.toNat_inj, BitVec.toNat_ofNat, BitVec.toNat_ofNat,
      Nat.mod_eq_of_lt hlt, Nat.zero_mod, hzero]
  refine ⟨.term c, ?_, ?_⟩
  · rw [toZ3_cmp ht hs, hc]
    rfl
  · rw [compare_null hcode hx]
    apply heval.trans
    rcases hcode with rfl | rfl <;> rfl

/-- The test whether the lookup of the pointer hit. -/
theorem hit_cond {code : JmpOp} (hcode : code = .JEQ ∨ code = .JNE) {mapId : Option Nat}
    {mapKey : Option Expr} {keyId : Option Int} {t : ZBv}
    (ht : exprToZ3 R blk st (.lookupHit mapId mapKey keyId) = .ok t)
    (hzero : t.toNat m = 0 ↔ v = 0#64) :
    ∃ g, Condition.toZ3 R blk st (.containMapValue mapId mapKey keyId (code ≠ .JEQ)) = .ok g ∧
      g.eval m = Isa.compare code v 0#64 := by
  -- what the indicator and the condition make of the same test for a hit
  have hfinish : ∀ hit c : ZTerm .bool, ⟨8, .ite hit (bvVal 1 8) (bvVal 0 8)⟩ = t →
      c.eval m = (hit.eval m == decide (code ≠ .JEQ)) → c.eval m = Isa.compare code v 0#64 := by
    intro hit c hthit hceval
    have hx : (!hit.eval m) = true ↔ v = 0#64 := by
      rw [← hzero, ← hthit]
      cases hval : hit.eval m <;> simp [Bv.toNat, hval]
    rw [hceval, compare_null hcode hx]
    rcases hcode with rfl | rfl <;> cases hit.eval m <;> rfl
  unfold exprToZ3 at ht
  cases mapId with
  | none =>
      refine ⟨.term (.boolVal (code ≠ .JEQ)), rfl, ?_⟩
      exact hfinish (.boolVal true) (.boolVal (code ≠ .JEQ)) (Except.ok.inj ht) (by simp)
  | some mapId =>
      cases mapKey with
      | none =>
          refine ⟨.term (.boolVal (code ≠ .JEQ)), rfl, ?_⟩
          exact hfinish (.boolVal true) (.boolVal (code ≠ .JEQ)) (Except.ok.inj ht) (by simp)
      | some k =>
          obtain ⟨key, hk, ht⟩ := Lib.bind_eq_ok.mp ht
          obtain ⟨hit, hhit, ht⟩ := Lib.bind_eq_ok.mp ht
          obtain ⟨c, hc, hceval⟩ := containTerm_result (m := m) hhit (decide (code ≠ .JEQ))
          refine ⟨.term c, ?_, hfinish hit c (Except.ok.inj ht) hceval⟩
          simp only [Condition.toZ3, hk]
          exact congrArg (Except.map Guard.term) hc

/-- The recorded condition compares the pointer's value with null. -/
theorem nullBranch_cond {code : JmpOp} (hcode : code = .JEQ ∨ code = .JNE)
    (hv : p.HasValue R blk st m v) {e : Expr} (he : p.nullIndicator = some e) :
    ∃ c, (nullBranch b code p).cond = some c ∧
      ∃ g, c.toZ3 R blk st = .ok g ∧ g.eval m = Isa.compare code v 0#64 := by
  obtain ⟨t, ht, hzero⟩ := hv e he
  cases hphi : p.nullPhi with
  | some phi =>
      have hind : p.nullIndicator = some phi := by simp only [PTR.nullIndicator, hphi]
      obtain rfl := Option.some.inj (hind.symm.trans he)
      refine ⟨_, ?_, phi_cond hcode ht hzero⟩
      simp only [nullBranch, hphi]
  | none =>
      have htype : p.ptrType = .MAP_VALUE := by
        by_contra hne
        simp only [PTR.nullIndicator, hphi, if_neg hne] at he
        cases he
      have hind : p.nullIndicator = some (.lookupHit p.mapId p.mapKey p.mapKeyId) := by
        simp only [PTR.nullIndicator, hphi, if_pos htype]
      obtain rfl := Option.some.inj (hind.symm.trans he)
      refine ⟨_, ?_, hit_cond hcode ht hzero⟩
      simp only [nullBranch, hphi, if_pos htype]

/-- Without an indicator no condition is recorded. -/
theorem nullBranch_cond_none (code : JmpOp) (hind : p.nullIndicator = none) :
    (nullBranch b code p).cond = b.cond := by
  cases hphi : p.nullPhi with
  | some phi =>
      simp only [PTR.nullIndicator, hphi] at hind
      cases hind
  | none =>
      have htype : p.ptrType ≠ .MAP_VALUE := by
        intro htype
        simp only [PTR.nullIndicator, hphi, if_pos htype] at hind
        cases hind
      simp only [nullBranch, hphi, if_neg htype]
      split <;> rfl

theorem nullBranch_facts (code : JmpOp) :
    (nullBranch b code p).condT = some (.ptr ⟨nullFactId p, code = .JEQ⟩) ∧
      (nullBranch b code p).condF = some (.ptr ⟨nullFactId p, code ≠ .JEQ⟩) := by
  by_cases hcode : code = .JEQ
  · cases hphi : p.nullPhi <;> simp only [nullBranch, hphi, hcode, if_true]
    · split <;> exact ⟨rfl, rfl⟩
    · exact ⟨rfl, rfl⟩
  · cases hphi : p.nullPhi <;> simp only [nullBranch, hphi, hcode, if_false]
    · split <;> simp [hcode]
    · simp [hcode]

/-- What the tracker makes of the branch: with the pointer as the source, the test of
the opposite condition. -/
theorem trackBranch_null (hcode : i.jmpCode = .JEQ ∨ i.jmpCode = .JNE)
    (hnull : p.checkedNull = none) {isDst : Bool} (hcmp : ComparesNull i b p isDst) :
    trackBranch i b = .ok (nullBranch b
      (if isDst then i.jmpCode else (swapJmpCode i.jmpCode).getD i.jmpCode) p) := by
  have hnumRet : ∀ e : Expr, e.num? = some 0 → adjustRetIn e = none ∧ e.ptr? = none := by
    intro e he
    cases e <;> first | exact ⟨rfl, rfl⟩ | cases he
  cases hcmp with
  | dst hdst hsrc =>
      obtain ⟨s, hs, hzero⟩ := Option.bind_eq_some_iff.mp hsrc
      have hret : adjustRetIn s = none := (hnumRet s hzero).1
      have hkeep : swapOperands i.jmpCode (some (.ptr p)) (some s) =
          (i.jmpCode, some (.ptr p), some s) := rfl
      rcases hcode with hcode | hcode <;>
        simp [trackBranch, hcode, hdst, hs, adjustRetIn, hret, trackBranch.compareWith,
          swapOperands, compareBranch, hnull, hzero, swapJmpCode] <;> rfl
  | src hdst hsrc =>
      obtain ⟨d, hd, hzero⟩ := Option.bind_eq_some_iff.mp hdst
      have hret : adjustRetIn d = none := (hnumRet d hzero).1
      obtain ⟨size, idx, rfl⟩ : ∃ size idx, d = .num 0 size idx := by
        cases d with
        | num n size idx => exact ⟨size, idx, by rw [Option.some.inj hzero]⟩
        | _ => cases hzero
      rcases hcode with hcode | hcode <;>
        simp [trackBranch, hcode, hd, hsrc, adjustRetIn, trackBranch.compareWith,
          swapOperands, compareBranch, hnull, Expr.num?, swapJmpCode] <;> rfl

/-- A null pointer takes the branch exactly when the test is for equality. -/
theorem taken_null (jmp32 : Bool) {code : JmpOp} (hcode : code = .JEQ ∨ code = .JNE) :
    Isa.taken jmp32 code 0#64 0#64 = decide (code = .JEQ) := by
  rcases hcode with rfl | rfl <;> cases jmp32 <;> rfl

/-- A test of the low half alone is the test of the pointer unless the low half of a
pointer that is not null is zero. -/
theorem compare_eq_taken_iff (jmp32 : Bool) {code : JmpOp} (hcode : code = .JEQ ∨ code = .JNE) :
    Isa.compare code v 0#64 = Isa.taken jmp32 code v 0#64 ↔
      (jmp32 = true → v.setWidth 32 = 0#32 → v = 0#64) := by
  cases jmp32 with
  | false =>
      constructor
      · intro _ hfalse
        cases hfalse
      · intro _
        rfl
  | true =>
      have hlow : v = 0#64 → v.setWidth 32 = 0#32 := by
        rintro rfl
        rfl
      have hboth : (v == 0#64) = (v.setWidth 32 == 0#32) ↔
          (v.setWidth 32 = 0#32 → v = 0#64) := by
        rw [Bool.eq_iff_iff, beq_iff_eq, beq_iff_eq]
        exact ⟨fun h => h.mpr, fun h => ⟨hlow, h⟩⟩
      have hjne : (v != 0#64) = (v.setWidth 32 != 0#32) ↔
          (v == 0#64) = (v.setWidth 32 == 0#32) := Bool.not_inj_iff
      have htrue : (true = true → v.setWidth 32 = 0#32 → v = 0#64) ↔
          (v.setWidth 32 = 0#32 → v = 0#64) := by simp
      rw [htrue]
      rcases hcode with rfl | rfl
      · exact hboth
      · exact hjne.trans hboth

/-- A null test is right exactly when the pointer is the destination operand and a
32-bit jump meets no pointer other than null whose low half is zero. With the pointer
as the source the code is negated where it should stay. -/
theorem null_test_iff (hcode : i.jmpCode = .JEQ ∨ i.jmpCode = .JNE) (hcond : b.cond = none)
    (hnull : p.checkedNull = none) {isDst : Bool} (hcmp : ComparesNull i b p isDst)
    (hv : p.HasValue R blk st m v) :
    ∃ b', trackBranch i b = .ok b' ∧
      (NullTestRight R blk st m i p isDst v b' ↔
        isDst = true ∧ (i.opcodeClass = .JMP32 → p.nullIndicator.isSome →
          v.setWidth 32 = 0#32 → v = 0#64)) := by
  refine ⟨_, trackBranch_null hcode hnull hcmp, ?_⟩
  have hnone : ∀ isDst, nullTestTaken i isDst 0#64 = decide (i.jmpCode = .JEQ) := by
    intro isDst
    cases isDst <;> exact taken_null _ hcode
  cases isDst with
  | false =>
      constructor
      · intro h
        have htaken := (nullBranch_facts _).1.symm.trans h.taken
        rw [hnone] at htaken
        rcases hcode with hcode | hcode <;> rw [hcode] at htaken <;> simp [swapJmpCode] at htaken
      · rintro ⟨hfalse, -⟩
        cases hfalse
  | true =>
      obtain ⟨hcondT, hcondF⟩ := nullBranch_facts (b := b) (p := p) i.jmpCode
      have hmachine : nullTestTaken i true v =
          Isa.taken (i.opcodeClass = .JMP32) i.jmpCode v 0#64 := rfl
      have hfacts : (nullBranch b i.jmpCode p).condT =
            some (.ptr ⟨nullFactId p, nullTestTaken i true 0#64⟩) ∧
          (nullBranch b i.jmpCode p).condF =
            some (.ptr ⟨nullFactId p, !nullTestTaken i true 0#64⟩) := by
        rw [hnone, hcondT, hcondF]
        simp
      rw [if_pos rfl]
      cases hind : p.nullIndicator with
      | none =>
          have hrecorded : (nullBranch b i.jmpCode p).cond = none :=
            (nullBranch_cond_none _ hind).trans hcond
          have hright : NullTestRight R blk st m i p true v (nullBranch b i.jmpCode p) := by
            refine ⟨hfacts.1, hfacts.2, ?_⟩
            rw [hrecorded]
            exact hind
          simp [hright]
      | some e =>
          obtain ⟨c, hc, g, hg, heval⟩ := nullBranch_cond (b := b) hcode hv hind
          have hiff := compare_eq_taken_iff (v := v) (decide (i.opcodeClass = .JMP32)) hcode
          rw [decide_eq_true_iff, ← heval, ← hmachine] at hiff
          constructor
          · intro h
            have hrecorded := h.cond
            rw [hc] at hrecorded
            obtain ⟨g', hg', heval'⟩ := hrecorded
            obtain rfl := Except.ok.inj (hg.symm.trans hg')
            exact ⟨rfl, fun h32 _ => hiff.mp heval' h32⟩
          · rintro ⟨-, h32⟩
            refine ⟨hfacts.1, hfacts.2, ?_⟩
            rw [hc]
            exact ⟨g, hg, hiff.mpr fun hjmp => h32 hjmp rfl⟩

end NullTest

/-- `if r2 == r1`, or with the operands exchanged. -/
def jumpIfEqual (dst src : Reg) : Instr where
  opcodeClass := .JMP
  opcodeS := .reg
  aluCode := .ADD
  jmpCode := .JEQ
  opcodeSz := .DW
  opcodeMode := .MEM
  srcReg := src
  dstReg := dst
  offset := 4
  imm := 0
  wideInstr := false
  nextImm := 0
  reloc := none

/-- The result of a lookup of the key 0 by the instruction 5. -/
def lookupResult : PTR Expr :=
  { ptrType := .MAP_VALUE, baseId := some 5, mapId := some 0, mapKey := some (.num 0 4 (-1))
    mapKeyId := some 5, checkedNull := none }

/-- A block with zero in `r1` and the result of the lookup in `r2`. -/
def lookupBlock : Block :=
  { num := 0, start := 0, «end» := 6
    regs := fun r =>
      if r = 1 then some ⟨.instr 4 0, .num 0 8 (-1)⟩
      else if r = 2 then some ⟨.instr 5 0, .ptr lookupResult⟩
      else none }

/-- With zero as the destination the taken edge of `==` states that the pointer is not
null, although a null pointer takes it. -/
theorem null_test_swapped :
    ComparesNull (jumpIfEqual 1 2) lookupBlock lookupResult false ∧
      ∃ b', trackBranch (jumpIfEqual 1 2) lookupBlock = .ok b' ∧
        b'.condT = some (.ptr ⟨some 5, false⟩) ∧
        nullTestTaken (jumpIfEqual 1 2) false 0#64 = true :=
  ⟨.src rfl rfl, _, rfl, rfl, rfl⟩

theorem null_test_iff_hit :
    ∃ b', trackBranch (jumpIfEqual 2 1) lookupBlock = .ok b' ∧
      (NullTestRight none none (makeInitState [⟨"m", 1, 4, 4, 8⟩]) (Model.ofNats fun _ => none)
          (jumpIfEqual 2 1) lookupResult true 0#64 b' ↔
        true = true ∧ ((jumpIfEqual 2 1).opcodeClass = .JMP32 → lookupResult.nullIndicator.isSome →
          BitVec.setWidth 32 0#64 = 0#32 → 0#64 = 0#64)) := by
  have hv : lookupResult.HasValue none none (makeInitState [⟨"m", 1, 4, 4, 8⟩])
      (Model.ofNats fun _ => none) 0#64 := by
    intro e he
    obtain rfl := Option.some.inj he
    exact ⟨_, rfl, by decide⟩
  exact null_test_iff (.inl rfl) rfl rfl (.dst rfl rfl) hv

end Hornet
