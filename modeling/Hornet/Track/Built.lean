import Hornet.Arith.Folding
import Hornet.Bpf.Layout
import Hornet.Track.Slots

/-!
A grammar of the values that the tracker builds. Registers and stack slots hold no
others, in any block of any program; what the constructors say about constants and
operations needs a program whose instructions are well formed.
-/

namespace Hornet

/-- An immediate of 32 bits, and an operation that is assigned. -/
structure Instr.WellFormed (i : Instr) : Prop where
  imm : -2 ^ 31 ≤ i.imm ∧ i.imm < 2 ^ 31
  aluCode : i.isAlu → i.aluCode ≠ .code_e ∧ i.aluCode ≠ .code_f

/-- A result of `bpf_xdp_adjust_head`, `bpf_xdp_adjust_meta` or `bpf_xdp_adjust_tail`. -/
def FuncRetval.isAdjust (r : FuncRetval Expr) : Prop := r.func = 44 ∨ r.func = 54 ∨ r.func = 65

/-- A constant whose term is the constant, modulo `2 ^ 64`. -/
def numFits (n : Int) (size : Nat) : Prop := size ≤ 8 ∧ (size = 8 ∨ 0 ≤ n ∧ n < 2 ^ (8 * size))

/-- The size of the result of a byte swap. -/
def endSize (imm : Int) : Nat :=
  if imm = 16 || imm = 32 || imm = 64 then (imm / 8).toNat else 8

/-- An immediate of a 32-bit operation, which may be negative. -/
def isImm32 (size : AluSize) (s : Expr) : Prop := size = .b4 ∧ ∃ n, s = .num n 4 (-1)

/-- The values that the tracker builds, from well-formed instructions if `wf` holds. -/
inductive Expr.Built (wf : Prop) : Expr → Prop
  | scalar (size : Nat) (idx : Int) : Built wf (.scalar size idx)
  | joinValue (blockIdx : Nat) (regNum : Int) (values : List (Option Expr))
      (edges : List (List Edge)) : Built wf (.joinValue blockIdx regNum values edges)
  | ingressIfindex : Built wf .ingressIfindex
  | rxQueueIndex : Built wf .rxQueueIndex
  | egressIfindex : Built wf .egressIfindex
  | pktLen {size : Nat} (h : size = 4 ∨ size = 8) (baseId : Option Int) :
      Built wf (.pktLen size baseId)
  | funcRetval {r : FuncRetval Expr} (h : r.isAdjust → r.size = 8 ∧ r.redirects = false ∧ 0 ≤ r.idx) :
      Built wf (.funcRetval r)
  | pktVal (block : Nat) (idx off : Int) (varOff : Option Expr) (size : Nat) :
      Built wf (.pktVal block idx off varOff size)
  | mapVal (block : Nat) (idx : Int) (mapId : Option Nat) (mapKey : Option Expr)
      (mapKeyId : Option Int) (off : Int) (varOff : Option Expr) (size : Nat) :
      Built wf (.mapVal block idx mapId mapKey mapKeyId off varOff size)
  | bssVal (block : Nat) (idx : Int) (bssKey : Option String) (off : Int) (varOff : Option Expr)
      (size : Nat) : Built wf (.bssVal block idx bssKey off varOff size)
  | rodataVal (data : List UInt8) (off : Int) (varOff : Option Expr) (size : Nat) :
      Built wf (.rodataVal data off varOff size)
  | num {n : Int} {size : Nat} (h : wf → numFits n size) (idx : Int) : Built wf (.num n size idx)
  | byteSeq (chunks : List (Option Expr)) (size off : Nat) : Built wf (.byteSeq chunks size off)
  | sext {d : Expr} (hd : Built wf d) (opcodeS : OpSrc) (imm : Int) {size : Nat}
      (hsize : size = 4 ∨ size = 8) (alu64 : Bool) :
      Built wf (.unary .MOV (some d) opcodeS imm size alu64)
  | neg (dst : Option Expr) (opcodeS : OpSrc) (imm : Int) {size : Nat} (hsize : size = 4 ∨ size = 8)
      (alu64 : Bool) : Built wf (.unary .NEG dst opcodeS imm size alu64)
  | swap (dst : Option Expr) (opcodeS : OpSrc) (imm : Int) (alu64 : Bool) :
      Built wf (.unary .END dst opcodeS imm (endSize imm) alu64)
  | binary {op : AluOp} {dst src : Option Expr} {size : AluSize} (hop : wf → op.isBinary)
      (hdst : ∀ d, dst = some d → Built wf d)
      (hsrc : ∀ s, src = some s → ¬isImm32 size s → Built wf s)
      (offset idx : Int) : Built wf (.binary op dst src offset size idx)
  | ptr {p : PTR Expr} (hoff : ∀ v, p.varOff = some v → Built wf v)
      (hscalar : ∀ v, p.varOff = some v → v.isPTR = false)
      (hmap : p.ptrType = .MAP_VALUE → p.mapId.isSome) : Built wf (.ptr p)

/-- An operand of an operation on `size` bytes. -/
def BuiltOperand (wf : Prop) (size : AluSize) (s : Expr) : Prop :=
  ¬isImm32 size s → s.Built wf

/-- Every value of the block is one of the grammar. -/
structure Block.Built (wf : Prop) (b : Block) : Prop where
  held : ∀ o, b.Holds o → o.val.Built wf
  tailCtx : ∀ o, b.tailCtx = some o → o.val.Built wf

variable {wf : Prop}

section Values

theorem Expr.Built.varOff {p : PTR Expr} (h : (Expr.ptr p).Built wf) {v : Expr}
    (hv : p.varOff = some v) : v.Built wf ∧ v.isPTR = false := by
  cases h with
  | ptr hoff hscalar hmap => exact ⟨hoff v hv, hscalar v hv⟩

theorem Expr.Built.mapId {p : PTR Expr} (h : (Expr.ptr p).Built wf)
    (htype : p.ptrType = .MAP_VALUE) : p.mapId.isSome := by
  cases h with
  | ptr hoff hscalar hmap => exact hmap htype

/-- A pointer into no map value, at a constant offset. -/
theorem Expr.Built.constant {p : PTR Expr} (hoff : p.varOff = none)
    (htype : p.ptrType ≠ .MAP_VALUE) : (Expr.ptr p).Built wf := by
  apply Expr.Built.ptr
  · intro v hv
    rw [hoff] at hv
    cases hv
  · intro v hv
    rw [hoff] at hv
    cases hv
  · intro h
    exact absurd h htype

/-- A pointer with the offset and the map of another one. -/
theorem Expr.Built.repoint {p q : PTR Expr} (h : (Expr.ptr p).Built wf) (hoff : q.varOff = p.varOff)
    (htype : q.ptrType = .MAP_VALUE → p.ptrType = .MAP_VALUE ∧ q.mapId = p.mapId) :
    (Expr.ptr q).Built wf := by
  apply Expr.Built.ptr
  · intro v hv
    exact (h.varOff (hoff ▸ hv)).1
  · intro v hv
    exact (h.varOff (hoff ▸ hv)).2
  · intro hvalue
    obtain ⟨hp, hmap⟩ := htype hvalue
    rw [hmap]
    exact h.mapId hp

/-- A constant of eight bytes. -/
theorem built_num_8 (n idx : Int) : (Expr.num n 8 idx).Built wf :=
  .num (fun _ => ⟨le_rfl, .inl rfl⟩) idx

theorem built_num_4 {n : Int} (hn : 0 ≤ n) (hlt : n < 2 ^ 32) (idx : Int) :
    (Expr.num n 4 idx).Built wf :=
  .num (fun _ => ⟨by decide, .inr ⟨hn, hlt⟩⟩) idx

theorem built_imm64 {imm : Int} (h : wf → imm < 2 ^ 31) : (imm64 imm).Built wf := by
  unfold imm64
  split
  · rename_i hpos
    apply Expr.Built.num
    intro hwf
    have hlt := h hwf
    have h32 : imm < 2 ^ (8 * 4) := by omega
    exact ⟨by decide, .inr ⟨hpos, h32⟩⟩
  · exact built_num_8 imm (-1)

theorem built_exprAlu {dst src : Option Expr} {code : AluOp} {size : AluSize} {idx offset : Int}
    {e : Expr} (hop : wf → code.isBinary) (hdst : ∀ d, dst = some d → d.Built wf)
    (hsrc : ∀ s, src = some s → BuiltOperand wf size s)
    (h : exprAlu dst src code size idx offset = some e) : e.Built wf := by
  unfold exprAlu at h
  split at h
  · split at h
    · cases h
      obtain ⟨hn, hlt⟩ := arith_32_range code _ _ _
      exact built_num_4 hn hlt idx
    · cases h
      exact built_num_8 _ idx
  · split at h
    · exact hdst e h
    · cases h
      exact .binary hop hdst hsrc offset idx

theorem isPTR_exprAlu {dst src : Option Expr} {code : AluOp} {size : AluSize} {idx offset : Int}
    {e : Expr} (hdst : ∀ d, dst = some d → d.isPTR = false)
    (h : exprAlu dst src code size idx offset = some e) : e.isPTR = false := by
  unfold exprAlu at h
  split at h
  · split at h <;> cases h <;> rfl
  · split at h
    · exact hdst e h
    · cases h
      rfl

theorem isBinary_of_addSub {code : AluOp} (h : code = .ADD ∨ code = .SUB) : code.isBinary := by
  rcases h with rfl | rfl <;> rfl

/-- The offset of a pointer is no pointer. -/
theorem built_totalOffset {p : PTR Expr} (h : (Expr.ptr p).Built wf) :
    p.totalOffset.Built wf ∧ p.totalOffset.isPTR = false := by
  unfold PTR.totalOffset
  split
  · exact ⟨built_num_8 _ _, rfl⟩
  · rename_i v hv
    obtain ⟨hbuilt, hptr⟩ := h.varOff hv
    cases hsum : exprAlu (some v) (some (.num p.off 8 (-1))) .ADD .b4 with
    | none => exact ⟨hbuilt, hptr⟩
    | some e =>
        constructor
        · refine built_exprAlu (fun _ => rfl) ?_ ?_ hsum
          · intro d hd
            cases hd
            exact hbuilt
          · intro s hs
            cases hs
            exact fun _ => built_num_8 _ _
        · apply isPTR_exprAlu _ hsum
          intro d hd
          cases hd
          exact hptr

theorem built_addVarOff {p : PTR Expr} (h : (Expr.ptr p).Built wf) {src : Option Expr}
    {code : AluOp} (hcode : code = .ADD ∨ code = .SUB) {size : AluSize} {idx : Nat}
    (hsrc : ∀ s, src = some s → BuiltOperand wf size s) {v : Expr}
    (hv : p.addVarOff src code size idx = some v) : v.Built wf ∧ v.isPTR = false := by
  have hbase : (p.varOff.getD (.num 0 8 (-1))).Built wf ∧
      (p.varOff.getD (.num 0 8 (-1))).isPTR = false := by
    cases hoff : p.varOff with
    | none => exact ⟨built_num_8 _ _, rfl⟩
    | some v => exact h.varOff hoff
  constructor
  · refine built_exprAlu (fun _ => isBinary_of_addSub hcode) ?_ hsrc hv
    intro d hd
    cases hd
    exact hbase.1
  · apply isPTR_exprAlu _ hv
    intro d hd
    cases hd
    exact hbase.2

theorem built_emod_32 (n idx : Int) : (Expr.num (n % 2 ^ 32) 4 idx).Built wf :=
  built_num_4 (Int.emod_nonneg n (by decide)) (Int.emod_lt_of_pos n (by decide)) idx

theorem built_trunc32 {v e : Expr} (h : BuiltOperand wf .b4 v) {idx : Int}
    (he : trunc32 (some v) idx = some e) : e.Built wf := by
  have hscalar : v.num? = none → v.Built wf := by
    intro hnum
    apply h
    rintro ⟨-, n, rfl⟩
    cases hnum
  unfold trunc32 at he
  split at he
  · cases he
  · rename_i heq
    obtain rfl := Option.some.inj heq
    cases he
    exact hscalar rfl
  · cases he
    exact built_emod_32 _ idx
  · rename_i hptr hnum heq
    obtain rfl := Option.some.inj heq
    have hbuilt : v.Built wf := by
      apply hscalar
      cases v with
      | num n size i => exact absurd rfl (hnum n size i)
      | _ => rfl
    split at he
    · cases he
      exact hbuilt
    · cases he
      apply Expr.Built.binary
      · exact fun _ => rfl
      · intro d hd
        cases hd
        exact hbuilt
      · intro s hs
        cases hs
        exact fun _ => built_num_4 (by decide) (by decide) _

theorem built_sext {value : Option Expr} {bits : Int} {size : Nat} {idx : Int}
    (hsize : size = 4 ∨ size = 8)
    (hvalue : ∀ v, value = some v → v.num? = none → v.Built wf) {e : Expr}
    (h : sext value bits size idx = .ok (some e)) : e.Built wf := by
  unfold sext at h
  split at h
  · cases h
  · cases h
  · split at h
    · cases h
      exact built_emod_32 _ idx
    · cases h
      exact built_num_8 _ idx
  · rename_i v hptr hnum
    cases h
    apply Expr.Built.sext _ _ _ hsize
    apply hvalue v rfl
    cases v with
    | num n size i => exact absurd rfl (hnum n size i)
    | _ => rfl

end Values

namespace Block

variable {b b' : Block}

theorem Holds.of_slots {o : Obj} (h : b'.Holds o) (hslots : b'.slots = b.slots) : b.Holds o := by
  cases h with
  | reg r hr => exact .reg r (regs_of_slots hslots ▸ hr)
  | stk hmem => exact .stk (stk_of_slots hslots ▸ hmem)

theorem Built.of_slots (h : b.Built wf) (hslots : b'.slots = b.slots) : b'.Built wf := by
  constructor
  · intro o ho
    exact h.held o (ho.of_slots hslots)
  · intro o ho
    exact h.tailCtx o (tailCtx_of_slots hslots ▸ ho)

theorem Built.reg (h : b.Built wf) {r : Reg} {e : Expr} (hr : b.reg r = some e) : e.Built wf := by
  obtain ⟨o, ho, rfl⟩ := Option.map_eq_some_iff.mp hr
  exact h.held o (.reg r ho)

theorem Built.setReg (h : b.Built wf) (r : Reg) {v : Option Obj}
    (hv : ∀ o, v = some o → o.val.Built wf) : (b.setReg r v).Built wf := by
  constructor
  · intro o ho
    cases ho with
    | reg r' hr =>
        simp only [Block.setReg, Function.update_apply] at hr
        split at hr
        · exact hv o hr
        · exact h.held o (.reg r' hr)
    | stk hmem => exact h.held o (.stk hmem)
  · exact h.tailCtx

theorem Built.emit (h : b.Built wf) (a : Action) : (b.emit a).Built wf := h.of_slots rfl

end Block

/-- A step that leaves the slots alone and yields a value of the grammar, if any. -/
structure Yields (wf : Prop) (b : Block) (out : Option Obj × Block) : Prop where
  slots : out.2.slots = b.slots
  built : ∀ o, out.1 = some o → o.val.Built wf

section Alu

variable {b : Block} {idx : Nat}

theorem Yields.fresh {b' : Block} (hslots : b'.slots = b.slots) {e : Expr} (h : e.Built wf) :
    Yields wf b (some (.fresh idx e), b') := by
  constructor
  · exact hslots
  · intro o ho
    cases ho
    exact h

theorem built_aluSource (h : b.Built wf) {instr : Instr} (hinstr : wf → instr.WellFormed) :
    ∀ o, aluSource idx instr b = some o →
      BuiltOperand wf (if instr.opcodeClass = .ALU64 then .b8 else .b4) o.val := by
  intro o ho himm
  unfold aluSource at ho
  split at ho
  · exact h.held o (.reg _ ho)
  · cases ho
    dsimp only [Obj.fresh] at himm ⊢
    split
    · exact built_imm64 fun hwf => (hinstr hwf).imm.2
    · rename_i h32
      rw [if_neg h32, if_neg h32] at himm
      exact absurd ⟨rfl, _, rfl⟩ himm

theorem built_truncObj {v : Option Obj} (h : ∀ o, v = some o → BuiltOperand wf .b4 o.val) :
    ∀ o, truncObj idx v = some o → o.val.Built wf := by
  intro o ho
  unfold truncObj at ho
  obtain ⟨o', ho', hval⟩ := Option.bind_eq_some_iff.mp ho
  split at hval
  · rename_i hself
    cases hval
    apply h o ho'
    rintro ⟨-, n, hn⟩
    simp [hn, Expr.isPTR, Expr.num?] at hself
  · obtain ⟨e, he, rfl⟩ := Option.map_eq_some_iff.mp hval
    exact built_trunc32 (h o' ho') he

theorem built_aluObj {dst src : Option Obj} {code : AluOp} {size : AluSize} {offset : Int}
    (hop : wf → code.isBinary) (hdst : ∀ o, dst = some o → o.val.Built wf)
    (hsrc : ∀ o, src = some o → BuiltOperand wf size o.val) :
    ∀ o, aluObj dst src code size idx offset = some o → o.val.Built wf := by
  intro o ho
  unfold aluObj at ho
  dsimp only at ho
  split at ho
  · exact hdst o ho
  · obtain ⟨e, he, rfl⟩ := Option.map_eq_some_iff.mp ho
    refine built_exprAlu hop ?_ ?_ he
    · intro d hd
      obtain ⟨o', ho', rfl⟩ := Option.map_eq_some_iff.mp hd
      exact hdst o' ho'
    · intro s hs
      obtain ⟨o', ho', rfl⟩ := Option.map_eq_some_iff.mp hs
      exact hsrc o' ho'

/-- An operand whose value is not a constant is one of the grammar. -/
theorem BuiltOperand.built {size : AluSize} {s : Expr} (h : BuiltOperand wf size s)
    (hnum : s.num? = none) : s.Built wf := by
  apply h
  rintro ⟨-, n, rfl⟩
  cases hnum

/-- So is any operand of a narrower operation. -/
theorem BuiltOperand.any {size size' : AluSize} {s : Expr} (h : BuiltOperand wf size s)
    (hnum : s.num? = none) : BuiltOperand wf size' s := fun _ => h.built hnum

theorem ptr?_eq_some {e : Expr} {p : PTR Expr} (h : e.ptr? = some p) : e = .ptr p := by
  cases e with
  | ptr q =>
      cases h
      rfl
  | _ => cases h

theorem yields_pktAlu {code : AluOp} (hcode : code = .ADD ∨ code = .SUB) {p : PTR Expr}
    {src : Option Expr} {size : AluSize} (hsrc : ∀ s, src = some s → BuiltOperand wf size s)
    (hp : (Expr.ptr p).Built wf) {o : Obj} {b' : Block} (h : pktAlu idx code b p src = .ok (o, b')) :
    Yields wf b (some o, b') := by
  unfold pktAlu at h
  split at h
  · rename_i q hq
    split at h
    · split at h
      · cases h
        exact .fresh rfl (.scalar 8 idx)
      · cases h
        apply Yields.fresh rfl
        obtain ⟨s, hs, hptr⟩ := Option.bind_eq_some_iff.mp hq
        obtain rfl := ptr?_eq_some hptr
        have hbuilt : (Expr.ptr q).Built wf := (hsrc _ hs).built rfl
        cases hdist : exprAlu (some p.totalOffset) (some q.totalOffset) .SUB .b8 idx with
        | none => exact (built_totalOffset hp).1
        | some e =>
            refine built_exprAlu (fun _ => rfl) ?_ ?_ hdist
            · intro d hd
              cases hd
              exact (built_totalOffset hp).1
            · intro s hs _
              cases hs
              exact (built_totalOffset hbuilt).1
    · cases h
  · cases h
    exact .fresh rfl (hp.repoint rfl nofun)
  · rename_i hnoptr hnonum
    cases h
    apply Yields.fresh (by rfl)
    have hoperand : ∀ s, src = some s → BuiltOperand wf .b4 s := by
      intro s hs
      apply (hsrc s hs).any
      rw [hs] at hnonum
      exact hnonum
    apply Expr.Built.ptr
    · intro v hv
      exact (built_addVarOff hp hcode hoperand hv).1
    · intro v hv
      exact (built_addVarOff hp hcode hoperand hv).2
    · exact nofun

theorem built_pktEndAlu {code : AluOp} {p q : PTR Expr} (hp : (Expr.ptr p).Built wf)
    (hq : (Expr.ptr q).Built wf) {o : Obj} (h : pktEndAlu idx code p q = .ok o) :
    o.val.Built wf := by
  unfold pktEndAlu at h
  split at h
  · cases h
  · split at h
    · cases h
      apply Expr.Built.binary
      · exact fun _ => rfl
      · intro d hd
        cases hd
        exact hp
      · intro s hs _
        cases hs
        exact hq
    · cases h
      have hlen : (Expr.pktLen 4 p.baseId).Built wf := .pktLen (.inl rfl) _
      cases hdist : exprAlu (some (.pktLen 4 p.baseId)) (some q.totalOffset) .SUB .b4 idx with
      | none => exact hlen
      | some e =>
          refine built_exprAlu (fun _ => rfl) ?_ ?_ hdist
          · intro d hd
            cases hd
            exact hlen
          · intro s hs _
            cases hs
            exact (built_totalOffset hq).1

theorem built_otherAlu {code : AluOp} (hcode : code = .ADD ∨ code = .SUB) {p : PTR Expr}
    {src : Option Expr} {size : AluSize} (hsrc : ∀ s, src = some s → BuiltOperand wf size s)
    (hp : (Expr.ptr p).Built wf) {o : Obj} (h : otherAlu idx code p src = .ok o) :
    o.val.Built wf := by
  unfold otherAlu at h
  split at h
  · cases h
    exact hp.repoint rfl fun htype => ⟨htype, rfl⟩
  · rename_i hnonum
    split at h
    · cases h
      have hoperand : ∀ s, src = some s → BuiltOperand wf .b8 s := by
        intro s hs
        apply (hsrc s hs).any
        rw [hs] at hnonum
        exact hnonum
      apply Expr.Built.ptr
      · intro v hv
        exact (built_addVarOff hp hcode hoperand hv).1
      · intro v hv
        exact (built_addVarOff hp hcode hoperand hv).2
      · exact hp.mapId
    · cases h

theorem yields_ptrAlu {code : AluOp} {o : Obj} {p : PTR Expr} {src : Option Expr} {size : AluSize}
    (hsrc : ∀ s, src = some s → BuiltOperand wf size s) (ho : o.val = .ptr p)
    (h : o.val.Built wf) {out : Obj × Block} (hrun : ptrAlu idx code b o p src = .ok out) :
    Yields wf b (some out.1, out.2) := by
  have hp : (Expr.ptr p).Built wf := ho ▸ h
  have hsame : ∀ {o' : Obj}, o'.val.Built wf → Yields wf b (some o', b) := by
    intro o' hbuilt
    refine ⟨rfl, ?_⟩
    intro o'' heq
    cases heq
    exact hbuilt
  unfold ptrAlu at hrun
  split at hrun
  · cases hrun
    exact hsame h
  · split at hrun
    · cases hrun
    · rename_i hallowed
      have hcode : code = .ADD ∨ code = .SUB := by
        by_contra hne
        rw [not_or] at hne
        simp [hne.1, hne.2] at hallowed
      split at hrun
      · exact yields_pktAlu hcode hsrc hp hrun
      · split at hrun
        · rename_i q htype hq
          obtain ⟨s, hs, hptr⟩ := Option.bind_eq_some_iff.mp hq
          obtain rfl := ptr?_eq_some hptr
          have hbuilt : (Expr.ptr q).Built wf := (hsrc _ hs).built rfl
          split at hrun
          · obtain ⟨o', hres, rfl⟩ := Lib.map_eq_ok.mp hrun
            exact hsame (built_pktEndAlu hp hbuilt hres)
          · obtain ⟨o', hres, rfl⟩ := Lib.map_eq_ok.mp hrun
            exact hsame (built_otherAlu hcode hsrc hp hres)
        · obtain ⟨o', hres, rfl⟩ := Lib.map_eq_ok.mp hrun
          exact hsame (built_otherAlu hcode hsrc hp hres)

theorem built_unaryAlu (instr : Instr) (size : AluSize) (dst : Option Expr)
    (hcode : instr.aluCode = .NEG ∨ instr.aluCode = .END) :
    (unaryAlu idx instr size dst).Built wf := by
  unfold unaryAlu
  split
  · split
    · exact built_num_8 _ idx
    · exact built_emod_32 _ idx
  · rcases hcode with hneg | hend
    · have hbytes : unaryWidth instr size = 4 ∨ unaryWidth instr size = 8 := by
        cases size <;> simp [unaryWidth, hneg, AluSize.bytes]
      rw [hneg]
      exact .neg _ _ _ hbytes _
    · have hwidth : unaryWidth instr size = endSize instr.imm := by
        simp [unaryWidth, hend, endSize]
      rw [hend, hwidth]
      exact .swap _ _ _ _

theorem built_binaryAlu {instr : Instr} {size : AluSize} {dst src : Option Obj}
    (hop : wf → instr.aluCode.isBinary) (hdst : ∀ o, dst = some o → o.val.Built wf)
    (hsrc : ∀ o, src = some o → BuiltOperand wf size o.val) :
    ∀ o, binaryAlu idx instr size dst src = some o → o.val.Built wf := by
  intro o ho
  unfold binaryAlu at ho
  dsimp only at ho
  split at ho
  · apply built_truncObj _ o ho
    intro o' ho' _
    exact built_aluObj hop hdst hsrc o' ho'
  · exact built_aluObj hop hdst hsrc o ho

/-- The operations that are left when moves, negations and byte swaps are set aside. -/
theorem isBinary_of_wellFormed {instr : Instr} (h : instr.WellFormed) (halu : instr.isAlu)
    (hmov : instr.aluCode ≠ .MOV) (hunary : instr.aluCode ≠ .NEG ∧ instr.aluCode ≠ .END) :
    instr.aluCode.isBinary := by
  obtain ⟨he, hf⟩ := h.aluCode halu
  cases hcode : instr.aluCode with
  | MOV => exact absurd hcode hmov
  | NEG => exact absurd hcode hunary.1
  | END => exact absurd hcode hunary.2
  | code_e => exact absurd hcode he
  | code_f => exact absurd hcode hf
  | _ => rfl

theorem yields_aluResult (h : b.Built wf) {instr : Instr} (hinstr : wf → instr.WellFormed)
    (halu : instr.isAlu) {out : Option Obj × Block} (hrun : aluResult idx instr b = .ok out) :
    Yields wf b out := by
  have hsrc : ∀ o, aluSource idx instr b = some o →
      BuiltOperand wf (if instr.opcodeClass = .ALU64 then .b8 else .b4) o.val :=
    built_aluSource h hinstr
  have hvals : ∀ s, (aluSource idx instr b).map (·.val) = some s →
      BuiltOperand wf (if instr.opcodeClass = .ALU64 then .b8 else .b4) s := by
    intro s hs
    obtain ⟨o, ho, rfl⟩ := Option.map_eq_some_iff.mp hs
    exact hsrc o ho
  unfold aluResult at hrun
  dsimp only at hrun
  split at hrun
  · split at hrun
    · obtain ⟨v, hv, hout⟩ := Lib.bind_eq_ok.mp hrun
      cases hout
      refine ⟨rfl, ?_⟩
      intro o ho
      obtain ⟨e, rfl, rfl⟩ := Option.map_eq_some_iff.mp ho
      have hsize : (if instr.opcodeClass = .ALU64 then AluSize.b8 else .b4).bytes = 4 ∨
          (if instr.opcodeClass = .ALU64 then AluSize.b8 else .b4).bytes = 8 := by
        split <;> simp [AluSize.bytes]
      exact built_sext hsize (fun v hv hnum => (hvals v hv).built hnum) hv
    · cases hrun
      refine ⟨rfl, ?_⟩
      dsimp only
      split
      · rename_i h64
        intro o ho
        apply hsrc o ho
        rintro ⟨h32, -⟩
        rw [h64] at h32
        cases h32
      · rename_i h32
        apply built_truncObj
        intro o ho
        have hoperand := hsrc o ho
        rw [if_neg h32] at hoperand
        exact hoperand
  · rename_i hmov
    split at hrun
    · rename_i org p hp
      obtain ⟨x, hx, rfl⟩ := Lib.map_eq_ok.mp hrun
      exact yields_ptrAlu hvals rfl (h.held _ (.reg _ hp)) hx
    · split at hrun
      · rename_i hcode
        cases hrun
        apply Yields.fresh rfl
        apply built_unaryAlu
        simpa using hcode
      · rename_i hunary
        cases hrun
        refine ⟨rfl, ?_⟩
        apply built_binaryAlu _ _ hsrc
        · intro hwf
          apply isBinary_of_wellFormed (hinstr hwf) halu hmov
          simpa using hunary
        · intro o ho
          exact h.held o (.reg _ ho)

theorem built_trackAlu (h : b.Built wf) {instr : Instr} (hinstr : wf → instr.WellFormed)
    (halu : instr.isAlu) {b' : Block} (hrun : trackAlu idx instr b = .ok b') : b'.Built wf := by
  obtain ⟨⟨new, b₁⟩, hres, hb'⟩ := Lib.bind_eq_ok.mp hrun
  cases hb'
  have hyields := yields_aluResult h hinstr halu hres
  exact (h.of_slots hyields.slots).setReg _ hyields.built

end Alu

section Memory

variable {b b' : Block} {idx : Nat}

theorem szMap_cases (sz : OpSize) : szMap sz = 1 ∨ szMap sz = 2 ∨ szMap sz = 4 ∨ szMap sz = 8 := by
  cases sz <;> simp [szMap]

theorem szMap_le (sz : OpSize) : szMap sz ≤ 8 := by
  have hcases := szMap_cases sz
  omega

theorem bytesNat_lt (bs : List UInt8) : bytesNat bs < 2 ^ (8 * bs.length) := by
  induction bs with
  | nil => simp [bytesNat]
  | cons x bs ih =>
      have hx := x.toNat_lt
      have hpow : 2 ^ (8 * (bs.length + 1)) = 256 * 2 ^ (8 * bs.length) := by
        rw [Nat.mul_add, Nat.pow_add]
        omega
      rw [bytesNat, List.length_cons, hpow]
      omega

/-- A constant that fills `size` bytes at most. -/
theorem built_num_of_lt {n size : Nat} (hsize : size ≤ 8) (hn : n < 2 ^ (8 * size)) (idx : Int) :
    (Expr.num n size idx).Built wf := by
  apply Expr.Built.num
  intro hwf
  have hcast : (n : Int) < 2 ^ (8 * size) := by exact_mod_cast hn
  exact ⟨hsize, .inr ⟨Int.natCast_nonneg n, hcast⟩⟩

theorem built_mask {size : Nat} (hsize : size ≤ 8) (idx : Int) :
    (Expr.num (2 ^ (8 * size) - 1) size idx).Built wf := by
  have hpos : 0 < 2 ^ (8 * size) := Nat.pow_pos (by decide)
  have hcast : ((2 : Int) ^ (8 * size) - 1) = ((2 ^ (8 * size) - 1 : Nat) : Int) := by
    push_cast [hpos]
    rfl
  have hlt : 2 ^ (8 * size) - 1 < 2 ^ (8 * size) := by omega
  rw [hcast]
  exact built_num_of_lt hsize hlt idx

/-- An operation of the tracker itself on a value and a constant. -/
theorem built_binary_num {op : AluOp} (hop : op.isBinary) {d : Expr} (hd : d.Built wf) {n : Int}
    {size : Nat} (hn : (Expr.num n size (-1)).Built wf) (idx : Int) :
    (Expr.binary op (some d) (some (.num n size (-1))) 0 .b8 idx).Built wf := by
  apply Expr.Built.binary
  · exact fun _ => hop
  · intro e he
    cases he
    exact hd
  · intro e he _
    cases he
    exact hn

theorem built_stkLoad (h : b.Built wf) {addr : Int} {size : Nat} (hsize : size ≤ 8) {o : Obj}
    (hrun : b.stkLoad addr size = .ok o) : o.val.Built wf := by
  unfold Block.stkLoad at hrun
  dsimp only at hrun
  split at hrun
  · cases hrun
    exact .byteSeq _ _ _
  · split at hrun
    · cases hrun
    · split at hrun
      · cases hrun
        exact .byteSeq _ _ _
      · split at hrun
        · cases hrun
        · rename_i slot hslot
          have hbuilt := h.held _ (.stk (List.mem_of_getElem? (Option.join_eq_some_iff.mp hslot)))
          split at hrun
          · cases hrun
            exact hbuilt
          · cases hrun
            exact built_binary_num rfl hbuilt (built_mask hsize _) _

theorem built_ctxLoad {p : PTR Expr} {addr : Int} {size : Nat} {e : Expr}
    (h : ctxLoad idx p addr size = .ok e) : e.Built wf := by
  unfold ctxLoad at h
  split at h
  · cases h
  · split at h
    · rename_i region hregion
      cases h
      apply Expr.Built.constant rfl
      intro htype
      obtain rfl : region = .MAP_VALUE := htype
      unfold ctxRegion at hregion
      repeat' split at hregion
      all_goals cases hregion
    · repeat' split at h
      all_goals cases h
      all_goals constructor

theorem built_rodataLoad (p : PTR Expr) (addr : Int) {size : Nat} (hsize : size ≤ 8) :
    (rodataLoad p addr size).Built wf := by
  unfold rodataLoad
  dsimp only
  split
  · exact .rodataVal _ _ _ _
  · apply built_num_of_lt hsize
    apply lt_of_lt_of_le (bytesNat_lt _)
    apply Nat.pow_le_pow_right (by decide)
    split
    · rw [List.length_take]
      omega
    · simp

theorem slots_load {p : PTR Expr} {offset : Int} {size : Nat} {o : Obj}
    (hrun : load idx b p offset size = .ok (o, b')) : b'.slots = b.slots := by
  unfold load at hrun
  split at hrun
  · cases hrun
  · dsimp only at hrun
    split at hrun
    · obtain ⟨e, he, hout⟩ := Lib.map_eq_ok.mp hrun
      cases hout
      rfl
    · obtain ⟨e, he, hout⟩ := Lib.map_eq_ok.mp hrun
      cases hout
      rfl
    all_goals cases hrun
    all_goals rfl

theorem built_load (h : b.Built wf) {p : PTR Expr} {offset : Int} {size : Nat} (hsize : size ≤ 8)
    {o : Obj} (hrun : load idx b p offset size = .ok (o, b')) : o.val.Built wf := by
  unfold load at hrun
  split at hrun
  · cases hrun
  · dsimp only at hrun
    split at hrun
    · obtain ⟨e, he, hout⟩ := Lib.map_eq_ok.mp hrun
      cases hout
      exact built_ctxLoad he
    · obtain ⟨o', ho', hout⟩ := Lib.map_eq_ok.mp hrun
      cases hout
      exact built_stkLoad h hsize ho'
    · cases hrun
      exact .pktVal _ _ _ _ _
    · cases hrun
      exact .mapVal _ _ _ _ _ _ _ _
    · cases hrun
      exact .bssVal _ _ _ _ _ _
    · cases hrun
      exact built_rodataLoad p _ hsize
    · cases hrun

theorem built_wideLoad (rodata : List UInt8) (instr : Instr) :
    (wideLoad rodata instr).Built wf := by
  unfold wideLoad
  split
  · exact .constant rfl nofun
  · exact .constant rfl nofun
  · exact .constant rfl nofun
  · exact built_num_8 _ _

theorem built_trackLoad (h : b.Built wf) {rodata : List UInt8} {instr : Instr}
    (hrun : trackLoad rodata idx instr b = .ok b') : b'.Built wf := by
  unfold trackLoad at hrun
  split at hrun
  · split at hrun
    · cases hrun
    · split at hrun
      · cases hrun
      · cases hrun
        apply h.setReg
        intro o ho
        cases ho
        exact built_wideLoad rodata instr
  · split at hrun
    · cases hrun
    · split at hrun
      · obtain ⟨⟨o, b₁⟩, hload, hrun⟩ := Lib.bind_eq_ok.mp hrun
        have hvalue := built_load h (szMap_le _) hload
        have hb₁ := h.of_slots (slots_load hload)
        dsimp only at hrun
        split at hrun
        · obtain ⟨v, hv, hb'⟩ := Lib.bind_eq_ok.mp hrun
          cases hb'
          apply hb₁.setReg
          intro o' ho'
          obtain ⟨e, rfl, rfl⟩ := Option.map_eq_some_iff.mp ho'
          apply built_sext (.inr rfl) _ hv
          intro v hv _
          cases hv
          exact hvalue
        · cases hrun
          apply hb₁.setReg
          intro o' ho'
          cases ho'
          exact hvalue
      · cases hrun

theorem built_setStk (h : b.Built wf) {stk : List (Option Obj)}
    (hstk : ∀ o, some o ∈ stk → o.val.Built wf) : ({ b with stk := stk } : Block).Built wf := by
  constructor
  · intro o ho
    cases ho with
    | reg r hr => exact h.held o (.reg r hr)
    | stk hmem => exact hstk o hmem
  · exact h.tailCtx

/-- The value of a store, cut down to its size and moved to its place. -/
theorem built_stored {value : Option Expr} (hvalue : ∀ d, value = some d → d.Built wf)
    {cut move : Prop} [Decidable cut] [Decidable move] {n k idx : Int} {e : Expr}
    (h : (if move then
        some (.binary .LSH
          (if cut then some (.binary .AND value (some (.num n 8 (-1))) 0 .b8 idx) else value)
          (some (.num k 8 (-1))) 0 .b8 idx)
      else if cut then some (.binary .AND value (some (.num n 8 (-1))) 0 .b8 idx) else value) =
      some e) : e.Built wf := by
  have hconst : ∀ (c : Int) (s : Expr), some (Expr.num c 8 (-1)) = some s → BuiltOperand wf .b8 s := by
    intro c s hs _
    cases hs
    exact built_num_8 _ _
  have hcut : (Expr.binary .AND value (some (.num n 8 (-1))) 0 .b8 idx).Built wf :=
    .binary (fun _ => rfl) hvalue (hconst n) _ _
  split at h
  · cases h
    refine .binary (fun _ => rfl) ?_ (hconst k) _ _
    intro d hd
    split at hd
    · cases hd
      exact hcut
    · exact hvalue d hd
  · split at h
    · cases h
      exact hcut
    · exact hvalue e h

theorem built_stkStore (h : b.Built wf) {addr : Int} {size : Nat} {value : Option Obj}
    (hvalue : ∀ o, value = some o → o.val.Built wf)
    (hrun : b.stkStore addr size value = .ok b') : b'.Built wf := by
  have hold : ∀ (n : Nat) (o : Obj), some o ∈ b.stk ++ List.replicate n none → o.val.Built wf := by
    intro n o ho
    rcases List.mem_append.mp ho with ho | ho
    · exact h.held o (.stk ho)
    · cases List.eq_of_mem_replicate ho
  have hset : ∀ (n i : Nat) (new : Option Obj), (∀ o, new = some o → o.val.Built wf) →
      ∀ o, some o ∈ (b.stk ++ List.replicate n none).set i new → o.val.Built wf := by
    intro n i new hnew o ho
    rcases List.mem_or_eq_of_mem_set ho with ho | ho
    · exact hold n o ho
    · exact hnew o ho.symm
  unfold Block.stkStore at hrun
  dsimp only at hrun
  split at hrun
  · cases hrun
  · have hstored : ∀ d, value.map (·.val) = some d → d.Built wf := by
      intro d hd
      obtain ⟨o', ho', rfl⟩ := Option.map_eq_some_iff.mp hd
      exact hvalue o' ho'
    split at hrun
    · rename_i old hslot
      have hslot' := List.mem_of_getElem? (Option.join_eq_some_iff.mp hslot)
      split at hrun
      · cases hrun
        apply built_setStk h (hset _ _ _ _)
        intro o ho
        split at ho
        · obtain ⟨e, he, rfl⟩ := Option.map_eq_some_iff.mp ho
          exact built_stored hstored he
        · exact hvalue o ho
      · cases hrun
        apply built_setStk h (hset _ _ _ _)
        intro o ho
        cases ho
        apply Expr.Built.binary
        · exact fun _ => rfl
        · intro d hd
          cases hd
          exact built_binary_num rfl (hold _ _ hslot') (built_num_8 _ _) _
        · intro e he _
          exact built_stored hstored he
    · cases hrun
      apply built_setStk h (hset _ _ _ _)
      intro o ho
      split at ho
      · obtain ⟨e, he, rfl⟩ := Option.map_eq_some_iff.mp ho
        exact built_stored hstored he
      · exact hvalue o ho

theorem built_store (h : b.Built wf) {p : PTR Expr} {offset : Int} {size : Nat}
    {value : Option Obj} (hvalue : ∀ o, value = some o → o.val.Built wf)
    (hrun : store b p offset size value = .ok b') : b'.Built wf := by
  unfold store at hrun
  split at hrun
  · cases hrun
  · dsimp only at hrun
    split at hrun
    · exact built_stkStore h hvalue hrun
    · split at hrun
      · cases hrun
      · split at hrun
        · cases hrun
        · cases hrun
          exact h.of_slots rfl
    · cases hrun
      exact h.of_slots rfl
    · cases hrun
      exact h.of_slots rfl
    · cases hrun
      exact h.of_slots rfl
    · cases hrun

theorem atomicAlu_ok {op : Int} {code : AluOp} (h : atomicAlu op = some code) :
    code = .ADD ∨ code = .OR ∨ code = .AND ∨ code = .XOR := by
  unfold atomicAlu at h
  repeat' split at h
  all_goals cases h
  all_goals simp

theorem isBinary_of_atomicAlu {op : Int} {code : AluOp} (h : atomicAlu op = some code) :
    code.isBinary := by
  rcases atomicAlu_ok h with rfl | rfl | rfl | rfl <;> rfl

theorem built_atomicStack (h : b.Built wf) {instr : Instr} {addr : Int} {size : Nat}
    (hsize : size ≤ 8) {src : Option Obj} (hsrc : ∀ o, src = some o → o.val.Built wf)
    (hrun : atomicStack idx b instr addr size src = .ok b') : b'.Built wf := by
  obtain ⟨old, hold, hrun⟩ := Lib.bind_eq_ok.mp hrun
  have hbuilt := built_stkLoad h hsize hold
  have hfetch : ∀ o, some old = some o → o.val.Built wf := by
    intro o ho
    cases ho
    exact hbuilt
  dsimp only at hrun
  split at hrun
  · rename_i code hcode
    obtain ⟨b₁, hstore, hrun⟩ := Lib.bind_eq_ok.mp hrun
    have hb₁ : b₁.Built wf := by
      apply built_stkStore h _ hstore
      intro o ho
      obtain ⟨new, hnew, rfl⟩ := Option.map_eq_some_iff.mp ho
      have hval : new.val.Built wf :=
        built_aluObj (fun _ => isBinary_of_atomicAlu hcode) hfetch (fun o ho _ => hsrc o ho) new hnew
      split <;> exact hval
    cases hrun
    split
    · exact hb₁.setReg _ hfetch
    · exact hb₁
  · split at hrun
    · obtain ⟨b₁, hstore, hrun⟩ := Lib.bind_eq_ok.mp hrun
      cases hrun
      exact (built_stkStore h hsrc hstore).setReg _ hfetch
    · cases hrun

theorem built_atomicMemory (h : b.Built wf) {instr : Instr} {p : PTR Expr} {size : Nat}
    (hsize : size ≤ 8) {src : Option Obj} (hrun : atomicMemory idx b instr p size src = .ok b') :
    b'.Built wf := by
  obtain ⟨⟨old, b₁⟩, hload, hrun⟩ := Lib.bind_eq_ok.mp hrun
  have hbuilt := built_load h hsize hload
  have hb₁ := h.of_slots (slots_load hload)
  dsimp only at hrun
  split at hrun
  · cases hrun
  · cases hrun
    have hemit : ∀ a a' : Action,
        (if p.ptrType = .MAP_VALUE then b₁.emit a else b₁.emit a').Built wf := by
      intro a a'
      split <;> exact hb₁.of_slots rfl
    split
    · apply (hemit _ _).setReg
      intro o ho
      cases ho
      exact hbuilt
    · exact hemit _ _

theorem built_trackStore (h : b.Built wf) {instr : Instr} (hinstr : wf → instr.WellFormed)
    (hrun : trackStore idx instr b = .ok b') : b'.Built wf := by
  have hsrc : ∀ o, (if instr.opcodeClass = .ST then some (Obj.fresh idx (imm64 instr.imm))
      else b.regs instr.srcReg) = some o → o.val.Built wf := by
    intro o ho
    split at ho
    · cases ho
      exact built_imm64 fun hwf => (hinstr hwf).imm.2
    · exact h.held o (.reg _ ho)
  unfold trackStore at hrun
  dsimp only at hrun
  split at hrun
  · cases hrun
  · cases hrun
  · split at hrun
    · exact built_store h hsrc hrun
    · cases hrun
  · split at hrun
    · cases hrun
    · split at hrun
      · split at hrun
        · exact built_atomicStack h (szMap_le _) hsrc hrun
        · split at hrun
          · exact built_atomicMemory h (szMap_le _) hrun
          · cases hrun
      · cases hrun
  · cases hrun

end Memory

section Branch

variable {b b' : Block}

theorem slots_adjustBranch (b : Block) (rv : FuncRetval Expr) (okTaken : Bool) :
    (adjustBranch b rv okTaken).slots = b.slots := by
  unfold adjustBranch
  dsimp only
  split
  · split <;> rfl
  · rfl

theorem slots_nullBranch (b : Block) (code : JmpOp) (p : PTR Expr) :
    (nullBranch b code p).slots = b.slots := by
  unfold nullBranch
  dsimp only
  split
  · split <;> rfl
  · split
    · split <;> rfl
    · split <;> rfl

theorem slots_pktSizeBranch {code : JmpOp} {p : PTR Expr} (h : pktSizeBranch b code p = .ok b') :
    b'.slots = b.slots := by
  unfold pktSizeBranch at h
  dsimp only at h
  split at h <;> cases h <;> rfl

theorem slots_compareBranch {code : JmpOp} {dst src : Option Expr} {jmp32 : Bool}
    (h : compareBranch b code dst src jmp32 = .ok b') : b'.slots = b.slots := by
  have hcompare : compareBranch.compare b code dst src jmp32 = .ok b' → b'.slots = b.slots := by
    intro h
    unfold compareBranch.compare at h
    split at h
    · split at h
      · split at h
        · split at h
          · exact slots_pktSizeBranch h
          · cases h
        · split at h
          · exact slots_pktSizeBranch h
          · cases h
      · cases h
    · cases h
      rfl
  unfold compareBranch at h
  split at h
  · split at h
    · split at h
      · cases h
      · split at h
        · cases h
          exact slots_nullBranch b code _
        · cases h
          rfl
    · exact hcompare h
  · exact hcompare h

theorem slots_trackBranch {instr : Instr} (h : trackBranch instr b = .ok b') :
    b'.slots = b.slots := by
  unfold trackBranch at h
  dsimp only at h
  split at h
  · cases h
  · split at h
    · split at h
      · cases h
        exact slots_adjustBranch b _ _
      · exact slots_compareBranch h
    · exact slots_compareBranch h

end Branch

section Call

variable {b b' : Block} {idx : Nat}

/-- A result that is no pointer and no constant. -/
theorem built_result (h : b.Built wf) {e : Expr} (he : e.Built wf) (idx : Nat) :
    (b.setReg 0 (some (.fresh idx e))).Built wf := by
  apply h.setReg
  intro o ho
  cases ho
  exact he

theorem built_scalarResult (h : b.Built wf) (idx : Nat) : (b.scalarResult idx).Built wf :=
  built_result h (.scalar 8 idx) idx

theorem isSome_of_mapInfo {maps : List MapInfo} {mapId : Option Nat} {info : MapInfo}
    (h : mapInfo maps mapId = .ok info) : mapId.isSome := by
  unfold mapInfo at h
  cases mapId with
  | none => cases h
  | some id => rfl

theorem built_mapLookup (h : b.Built wf) {maps : List MapInfo}
    (hrun : mapLookup maps idx b = .ok b') : b'.Built wf := by
  unfold mapLookup at hrun
  split at hrun
  · obtain ⟨info, hinfo, hrun⟩ := Lib.bind_eq_ok.mp hrun
    obtain ⟨⟨key, b₁⟩, hload, hrun⟩ := Lib.bind_eq_ok.mp hrun
    have hb₁ := h.of_slots (slots_load hload)
    cases hrun
    refine (built_result hb₁ ?_ idx).of_slots rfl
    exact .ptr nofun nofun fun _ => isSome_of_mapInfo hinfo
  · cases hrun

theorem built_mapUpdate (h : b.Built wf) {maps : List MapInfo}
    (hrun : mapUpdate maps idx b = .ok b') : b'.Built wf := by
  unfold mapUpdate at hrun
  split at hrun
  · obtain ⟨info, -, hrun⟩ := Lib.bind_eq_ok.mp hrun
    obtain ⟨⟨key, b₁⟩, hkey, hrun⟩ := Lib.bind_eq_ok.mp hrun
    obtain ⟨⟨value, b₂⟩, hvalue, hrun⟩ := Lib.bind_eq_ok.mp hrun
    have hb₁ := h.of_slots (slots_load hkey)
    have hb₂ := hb₁.of_slots (slots_load hvalue)
    cases hrun
    exact built_scalarResult (hb₂.emit _) idx
  · cases hrun
    exact built_scalarResult h idx

theorem built_mapDelete (h : b.Built wf) {maps : List MapInfo}
    (hrun : mapDelete maps idx b = .ok b') : b'.Built wf := by
  unfold mapDelete at hrun
  split at hrun
  · obtain ⟨info, -, hrun⟩ := Lib.bind_eq_ok.mp hrun
    obtain ⟨⟨key, b₁⟩, hkey, hrun⟩ := Lib.bind_eq_ok.mp hrun
    cases hrun
    exact built_scalarResult (Block.Built.emit (h.of_slots (slots_load hkey)) _) idx
  · cases hrun
    exact built_scalarResult h idx

theorem built_namedResult (h : b.Built wf) {r : FuncRetval Expr}
    (hfunc : r.func ≠ 44 ∧ r.func ≠ 54 ∧ r.func ≠ 65) : (namedResult idx b r).Built wf := by
  refine (built_result h (.funcRetval ?_) idx).of_slots rfl
  intro hadjust
  unfold FuncRetval.isAdjust at hadjust
  omega

theorem built_adjustCall (h : b.Built wf) {imm : Int} {action : Int → Action}
    {out : PTR Expr × Block} (hrun : adjustCall idx imm b action = .ok out) : out.2.Built wf := by
  obtain ⟨ctx, -, hrun⟩ := Lib.bind_eq_ok.mp hrun
  obtain ⟨delta, -, hrun⟩ := Lib.bind_eq_ok.mp hrun
  cases hrun
  refine (built_result h (.funcRetval ?_) idx).of_slots rfl
  intro _
  exact ⟨rfl, rfl, Int.natCast_nonneg idx⟩

theorem built_withView {o : Obj} (h : o.val.Built wf) (baseId : Option Int) (copy : Origin) :
    (withView o baseId copy).val.Built wf := by
  unfold withView
  split
  · rename_i p hp
    split
    · exact h
    · have hp' : (Expr.ptr p).Built wf := hp ▸ h
      exact hp'.repoint rfl fun htype => ⟨htype, rfl⟩
  · exact h

theorem built_setCtxView (h : b.Built wf) (baseId : Option Int) : (b.setCtxView baseId).Built wf := by
  constructor
  · intro o ho
    cases ho with
    | reg r hr =>
        obtain ⟨o', ho', rfl⟩ := Option.map_eq_some_iff.mp hr
        exact built_withView (h.held o' (.reg r ho')) _ _
    | stk hmem =>
        obtain ⟨⟨v, k⟩, hvk, hv⟩ := List.mem_map.mp hmem
        obtain ⟨o', rfl, rfl⟩ := Option.map_eq_some_iff.mp hv
        exact built_withView (h.held o' (.stk (List.fst_mem_of_mem_zipIdx hvk))) _ _
  · exact h.tailCtx

theorem built_adjustHeadCall (h : b.Built wf) (hrun : adjustHeadCall idx b = .ok b') :
    b'.Built wf := by
  obtain ⟨⟨ctx, b₁⟩, hcall, hrun⟩ := Lib.bind_eq_ok.mp hrun
  cases hrun
  have hb₁ : b₁.Built wf := built_adjustCall h hcall
  exact built_setCtxView (hb₁.of_slots (by rfl)) none

theorem built_tailCall (h : b.Built wf) {P : Program} {blocks : List Block}
    (hrun : tailCall P blocks idx b = .ok b') : b'.Built wf := by
  obtain ⟨region, -, hrun⟩ := Lib.bind_eq_ok.mp hrun
  split at hrun
  · rename_i org ctx map hctx hmap
    split at hrun
    · cases hrun
    · obtain ⟨info, -, hrun⟩ := Lib.bind_eq_ok.mp hrun
      split at hrun
      · cases hrun
      · cases hrun
        apply built_scalarResult
        constructor
        · intro o ho
          cases ho with
          | reg r hr => exact h.held o (.reg r hr)
          | stk hmem => exact h.held o (.stk hmem)
        · intro o ho
          cases ho
          exact h.held _ (.reg 1 hctx)
  · cases hrun

theorem built_helperCall (h : b.Built wf) {P : Program} {blocks : List Block} {imm : Int}
    (hrun : helperCall P blocks idx imm b = .ok b') : b'.Built wf := by
  cases helperCall_step hrun with
  | mapLookup hstep => exact built_mapLookup h hstep
  | mapUpdate hstep => exact built_mapUpdate h hstep
  | mapDelete hstep => exact built_mapDelete h hstep
  | named _ r hfunc hstep => exact hstep ▸ built_namedResult h hfunc
  | perfEventOutput hstep => exact hstep ▸ built_scalarResult (h.emit _) idx
  | adjustHead hstep => exact built_adjustHeadCall h hstep
  | tailCall hstep => exact built_tailCall h hstep
  | adjustMeta hstep => exact built_adjustCall h hstep
  | adjustTail hstep => exact built_adjustCall h hstep
  | buffLen hstep => exact hstep ▸ (built_result h (.pktLen (.inr rfl) _) idx).emit _

theorem built_trackCall (h : b.Built wf) {P : Program} {blocks : List Block} {instr : Instr}
    (hrun : trackCall P blocks idx instr b = .ok b') : b'.Built wf := by
  unfold trackCall at hrun
  split at hrun
  · cases hrun
    exact built_scalarResult h idx
  · obtain ⟨b₁, hcall, hrun⟩ := Lib.bind_eq_ok.mp hrun
    cases hrun
    refine List.foldlRecOn _ _ (motive := Block.Built wf) (built_helperCall h hcall) ?_
    intro b₂ hb₂ r _
    apply hb₂.setReg
    intro o ho
    cases ho

end Call

section Step

variable {P : Program} {blocks : List Block} {b b' : Block}

/-- One instruction keeps the grammar. -/
theorem built_trackInstr (hP : wf → ∀ i ∈ P.instrs, i.WellFormed) {idx : Nat} (h : b.Built wf)
    (hrun : trackInstr P blocks b idx = .ok b') : b'.Built wf := by
  have hidx : ({ b with idx := idx } : Block).Built wf := h.of_slots rfl
  unfold trackInstr at hrun
  dsimp only at hrun
  split at hrun
  · cases hrun
  · rename_i instr hget
    have hinstr : wf → instr.WellFormed := fun hwf => hP hwf instr (List.mem_of_getElem? hget)
    split at hrun
    · rename_i halu
      exact built_trackAlu hidx hinstr halu hrun
    · split at hrun
      · exact built_trackLoad hidx hrun
      · split at hrun
        · exact built_trackStore hidx hinstr hrun
        · split at hrun
          · exact built_trackCall hidx hrun
          · split at hrun
            · exact hidx.of_slots (slots_trackBranch hrun)
            · cases hrun
              exact hidx

/-- Several instructions do. -/
theorem built_trackInstrs (hP : wf → ∀ i ∈ P.instrs, i.WellFormed) {idxs : List Nat}
    (h : b.Built wf) (hrun : idxs.foldlM (trackInstr P blocks) b = .ok b') : b'.Built wf :=
  Lib.foldlM_ok (fun _ b => b.Built wf) h (fun _ _ _ _ hs _ hstep => built_trackInstr hP hs hstep) hrun

theorem built_of_merged {entries : List (Option Obj)} {e : Expr} (h : Merged entries e)
    (hent : ∀ o, some o ∈ entries → o.val.Built wf) : e.Built wf := by
  cases h with
  | entry hmem => exact hent _ hmem
  | null => exact built_num_8 _ _
  | join => exact .joinValue _ _ _ _
  | @ptr o p q hmem hp htype hmap hoff =>
      have hbuilt : (Expr.ptr p).Built wf := hp ▸ hent _ hmem
      have hvar : ∀ v, q.varOff = some v → v.Built wf ∧ v.isPTR = false := by
        intro v hv
        rcases hoff with hoff | ⟨b, r, vs, es, hoff⟩
        · exact hbuilt.varOff (hoff ▸ hv)
        · rw [hoff] at hv
          cases hv
          exact ⟨.joinValue _ _ _ _, rfl⟩
      apply Expr.Built.ptr
      · exact fun v hv => (hvar v hv).1
      · exact fun v hv => (hvar v hv).2
      · intro hvalue
        rcases hmap with hpkt | hmap
        · rw [hpkt] at hvalue
          cases hvalue
        · rw [hmap]
          exact hbuilt.mapId (htype ▸ hvalue)

/-- A block that is entered from blocks of the grammar. -/
theorem built_enter {self : Block} (hself : self.Built wf)
    (hpreds : ∀ pb ∈ self.predBlocks blocks, pb.Built wf) (h : enter blocks self = .ok b) :
    b.Built wf := by
  obtain ⟨hheld, hctx⟩ := held_enter h
  have hvalue : ∀ e, EntryValue blocks self e → e.Built wf := by
    intro e he
    cases he with
    | own hown => exact hself.held _ hown
    | ctx => exact .constant rfl nofun
    | stk => exact .constant rfl nofun
    | tail hpb htail => exact (hpreds _ hpb).tailCtx _ htail
    | merged hfrom =>
        obtain ⟨entries, hent, hmerged⟩ := hfrom
        apply built_of_merged hmerged
        intro o ho
        obtain ⟨pb, hpb, hholds⟩ := hent o ho
        exact (hpreds pb hpb).held o hholds
  constructor
  · intro o ho
    exact hvalue _ (hheld o ho)
  · intro o ho
    exact hself.tailCtx o (hctx ▸ ho)

end Step

/-- A block that holds no value yet. -/
def Block.Blank (b : Block) : Prop := b.slots = (fun _ => none, [], none)

theorem Block.Blank.built {b : Block} (h : b.Blank) : b.Built wf := by
  have hregs : b.regs = fun _ => none := congrArg (·.1) h
  have hstk : b.stk = [] := congrArg (·.2.1) h
  have hctx : b.tailCtx = none := congrArg (·.2.2) h
  constructor
  · intro o ho
    cases ho with
    | reg r hr =>
        rw [hregs] at hr
        cases hr
    | stk hmem =>
        rw [hstk] at hmem
        cases hmem
  · intro o ho
    rw [hctx] at ho
    cases ho

section Graph

variable {blocks blocks' : List Block}

theorem blank_modify {f : Block → Block} (hf : ∀ b, (f b).slots = b.slots) (i : Nat)
    (h : ∀ b ∈ blocks, b.Blank) : ∀ b ∈ blocks.modify i f, b.Blank := by
  intro b hb
  obtain ⟨j, hj⟩ := List.mem_iff_getElem?.mp hb
  rw [List.getElem?_modify] at hj
  obtain ⟨b', hb', rfl⟩ := Option.map_eq_some_iff.mp hj
  have hold := h b' (List.mem_of_getElem? hb')
  split
  · exact (hf b').trans hold
  · exact hold

theorem blank_linkBlock {instrs : List Instr} {progs : List ProgRegion} {starts : List Nat}
    {i : Nat} (hblank : ∀ b ∈ blocks, b.Blank)
    (h : linkBlock instrs progs starts blocks i = .ok blocks') : ∀ b ∈ blocks', b.Blank := by
  unfold linkBlock at h
  split at h
  · cases h
    exact hblank
  · obtain ⟨e, -, h⟩ := Lib.bind_eq_ok.mp h
    cases h
    refine List.foldlRecOn _ _ (motive := fun bs : List Block => ∀ b ∈ bs, b.Blank) ?_ ?_
    · exact blank_modify (fun b => by rfl) i hblank
    · exact fun bs hbs s _ => blank_modify (fun b => by rfl) s hbs

theorem blank_markEntry {starts : List Nat} {region : ProgRegion} (hblank : ∀ b ∈ blocks, b.Blank)
    (h : markEntry starts blocks region = .ok blocks') : ∀ b ∈ blocks', b.Blank := by
  unfold markEntry at h
  split at h
  · cases h
  · cases h
    split
    · exact hblank
    · exact blank_modify (fun b => by rfl) _ hblank

/-- The blocks of a graph hold no values. -/
theorem blank_buildCfg {instrs : List Instr} {progs : List ProgRegion}
    (h : buildCfg instrs progs = .ok blocks) : ∀ b ∈ blocks, b.Blank := by
  obtain ⟨linked, hlink, hmark⟩ := Lib.bind_eq_ok.mp h
  have hcut : ∀ b ∈ cutBlocks instrs (leaders instrs progs), b.Blank := by
    intro b hb
    obtain ⟨x, -, rfl⟩ := List.mem_map.mp hb
    rfl
  have hlinked := Lib.foldlM_ok (fun _ (bs : List Block) => ∀ b ∈ bs, b.Blank) hcut
    (fun _ _ _ _ hs _ hrun => blank_linkBlock hs hrun) hlink
  exact Lib.foldlM_ok (fun _ (bs : List Block) => ∀ b ∈ bs, b.Blank) hlinked
    (fun _ _ _ _ hs _ hrun => blank_markEntry hs hrun) hmark

end Graph

section Run

variable {P : Program} {cfg : List Block}

theorem built_trackBlock (hP : wf → ∀ i ∈ P.instrs, i.WellFormed) {t t' : Tracker} {no : Nat}
    (hbuilt : ∀ b ∈ t.blocks, b.Built wf) (h : trackBlock P t no = .ok t') :
    ∀ b ∈ t'.blocks, b.Built wf := by
  obtain ⟨b, b', hb, hset, -, entered, hentered, hrun⟩ := blocks_trackBlock h
  rw [hset]
  intro c hc
  rcases List.mem_or_eq_of_mem_set hc with hc | rfl
  · exact hbuilt c hc
  · refine built_trackInstrs hP (built_enter ?_ ?_ hentered) hrun
    · exact (hbuilt b (List.mem_of_getElem? hb)).of_slots rfl
    · intro pb hpb
      obtain ⟨p, -, hp⟩ := List.mem_filterMap.mp hpb
      exact hbuilt pb (List.mem_of_getElem? hp)

theorem TrackRun.built (hP : wf → ∀ i ∈ P.instrs, i.WellFormed) {t : Tracker} {done : List Nat}
    (hblank : ∀ b ∈ cfg, b.Blank) (h : TrackRun P cfg t done) : ∀ b ∈ t.blocks, b.Built wf := by
  induction h with
  | first h => exact built_trackBlock hP (fun b hb => (hblank b hb).built) h
  | next _ _ _ _ h ih => exact built_trackBlock hP ih h

/-- Every state that the tracker leaves a block in holds values of the grammar. -/
theorem TrackPoint.built (hP : wf → ∀ i ∈ P.instrs, i.WellFormed) {b : Block}
    (hblank : ∀ b ∈ cfg, b.Blank) (h : TrackPoint P cfg b) : b.Built wf := by
  cases h with
  | @mk t no self entered _ next hself henter steps hrun =>
      have hblocks : ∀ b ∈ t.blocks, b.Built wf := by
        cases next with
        | first => exact fun b hb => (hblank b hb).built
        | next hrun => exact hrun.built hP hblank
      refine built_trackInstrs hP (built_enter ?_ ?_ henter) hrun
      · exact (hblocks self (List.mem_of_getElem? hself)).of_slots rfl
      · intro pb hpb
        obtain ⟨p, -, hp⟩ := List.mem_filterMap.mp hpb
        exact hblocks pb (List.mem_of_getElem? hp)

end Run

end Hornet
