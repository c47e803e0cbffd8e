import Hornet.Track.Built

/-!
The joins that registers and stack slots hold. An instruction makes none: it hands on
what it finds in the slots, a join alone or a join that is the offset of a pointer. A
merge makes joins of the values that the edges bring, so whatever lies in a join, however
deep, once was a value of its own.
-/

namespace Hornet

/-- The join that a value is, or that is the variable offset of a pointer. -/
def Expr.join? : Expr → Option Expr
  | .joinValue b r vs es => some (.joinValue b r vs es)
  | .ptr p =>
      match p.varOff with
      | some (.joinValue b r vs es) => some (.joinValue b r vs es)
      | _ => none
  | _ => none

/-- The join of the value, if it has one, is in `Q`. -/
def Expr.Within (Q : Expr → Prop) (e : Expr) : Prop := ∀ j, e.join? = some j → Q j

/-- The joins of all values of the block are in `Q`. -/
structure Block.Within (Q : Expr → Prop) (b : Block) : Prop where
  held : ∀ o, b.Holds o → o.val.Within Q
  tailCtx : ∀ o, b.tailCtx = some o → o.val.Within Q

variable {Q : Expr → Prop}

section Values

/-- A value that has no join. -/
theorem Expr.Within.plain {e : Expr} (h : e.join? = none) : e.Within Q := by
  intro j hj
  rw [h] at hj
  cases hj

/-- A pointer with the variable offset of another one. -/
theorem Expr.Within.repoint {p q : PTR Expr} (h : (Expr.ptr p).Within Q)
    (hoff : q.varOff = p.varOff) : (Expr.ptr q).Within Q := by
  intro j hj
  apply h j
  rw [← hj]
  simp only [Expr.join?, hoff]

/-- The variable offset of a pointer has no joins besides those of the pointer. -/
theorem within_varOff {p : PTR Expr} (h : (Expr.ptr p).Within Q) {v : Expr}
    (hv : p.varOff = some v) (hptr : v.isPTR = false) : v.Within Q := by
  intro j hj
  apply h j
  rw [← hj]
  cases v with
  | ptr => cases hptr
  | _ => simp only [Expr.join?, hv]

theorem within_of_varOff {p : PTR Expr} (h : ∀ v, p.varOff = some v → v.Within Q) :
    (Expr.ptr p).Within Q := by
  intro j hj
  cases hv : p.varOff with
  | none => simp [Expr.join?, hv] at hj
  | some v =>
      apply h v hv
      rw [← hj]
      cases v with
      | joinValue => simp only [Expr.join?, hv]
      | _ => simp [Expr.join?, hv] at hj

/-- An operation hands on its first operand or makes a value without a join. -/
theorem within_exprAlu {dst src : Option Expr} {code : AluOp} {size : AluSize} {idx offset : Int}
    (hdst : ∀ d, dst = some d → d.Within Q) {e : Expr}
    (h : exprAlu dst src code size idx offset = some e) : e.Within Q := by
  unfold exprAlu at h
  split at h
  · dsimp only at h
    split at h <;> cases h <;> exact .plain rfl
  · split at h
    · exact hdst e h
    · cases h
      exact .plain rfl

/-- The low half of a value is the value itself, or an operation. -/
theorem within_trunc32 {v e : Expr} (hv : v.Within Q) {idx : Int}
    (h : trunc32 (some v) idx = some e) : e.Within Q := by
  have hself : some v = some e → e.Within Q := by
    intro heq
    cases heq
    exact hv
  unfold trunc32 at h
  split at h
  · cases h
  · rename_i heq
    exact hself (heq.trans h)
  · cases h
    exact .plain rfl
  · rename_i heq
    split at h
    · exact hself (heq.trans h)
    · cases h
      exact .plain rfl

theorem within_sext {value : Option Expr} {bits : Int} {size : Nat} {idx : Int} {out : Option Expr}
    (h : sext value bits size idx = .ok out) {e : Expr} (he : out = some e) : e.Within Q := by
  subst he
  unfold sext at h
  split at h
  · cases h
  · cases h
  · dsimp only at h
    split at h <;> cases h <;> exact .plain rfl
  · cases h
    exact .plain rfl

/-- The offset of a pointer, summed up, is a constant, its variable part or an operation. -/
theorem within_totalOffset {p : PTR Expr} (hp : (Expr.ptr p).Within Q)
    (hscalar : ∀ v, p.varOff = some v → v.isPTR = false) : p.totalOffset.Within Q := by
  unfold PTR.totalOffset
  split
  · exact .plain rfl
  · rename_i v hv
    have hval := within_varOff hp hv (hscalar v hv)
    have hdst : ∀ d, some v = some d → d.Within Q := by
      intro d hd
      cases hd
      exact hval
    cases he : exprAlu (some v) (some (.num p.off 8 (-1))) .ADD .b4 with
    | none => exact hval
    | some e => exact within_exprAlu hdst he

end Values

namespace Block

variable {b b' : Block}

/-- What is held depends on the slots only. -/
theorem Within.of_slots (h : b.Within Q) (hslots : b'.slots = b.slots) : b'.Within Q := by
  constructor
  · intro o ho
    exact h.held o (ho.of_slots hslots)
  · intro o ho
    exact h.tailCtx o (tailCtx_of_slots hslots ▸ ho)

theorem Within.reg (h : b.Within Q) {r : Reg} {e : Expr} (hr : b.reg r = some e) : e.Within Q := by
  obtain ⟨o, ho, rfl⟩ := Option.map_eq_some_iff.mp hr
  exact h.held o (.reg r ho)

/-- A register takes a value whose joins are in `Q`. -/
theorem Within.setReg (h : b.Within Q) (r : Reg) {v : Option Obj}
    (hv : ∀ o, v = some o → o.val.Within Q) : (b.setReg r v).Within Q := by
  constructor
  · intro o ho
    cases ho with
    | reg r' hr =>
        simp only [Block.setReg, Function.update_apply] at hr
        split at hr
        · exact hv o hr
        · exact h.held o (.reg r' hr)
    | stk hmem => exact h.held o (.stk hmem)
  · exact h.tailCtx

theorem Within.emit (h : b.Within Q) (a : Action) : (b.emit a).Within Q := h.of_slots rfl

/-- A result without a join. -/
theorem Within.result (h : b.Within Q) {e : Expr} (he : e.join? = none) (r : Reg) (idx : Nat) :
    (b.setReg r (some (.fresh idx e))).Within Q := by
  apply h.setReg
  intro o ho
  cases ho
  exact .plain he

end Block

section Alu

variable {b b' : Block} {idx : Nat}

theorem within_aluSource (h : b.Within Q) (instr : Instr) :
    ∀ o, aluSource idx instr b = some o → o.val.Within Q := by
  intro o ho
  unfold aluSource at ho
  split at ho
  · exact h.held o (.reg _ ho)
  · cases ho
    unfold imm64
    dsimp only [Obj.fresh]
    split <;> exact .plain rfl

theorem within_truncObj {v : Option Obj} (h : ∀ o, v = some o → o.val.Within Q) :
    ∀ o, truncObj idx v = some o → o.val.Within Q := by
  intro o ho
  unfold truncObj at ho
  obtain ⟨o', ho', hval⟩ := Option.bind_eq_some_iff.mp ho
  split at hval
  · cases hval
    exact h o ho'
  · obtain ⟨e, he, rfl⟩ := Option.map_eq_some_iff.mp hval
    exact within_trunc32 (h o' ho') he

theorem within_aluObj {dst src : Option Obj} {code : AluOp} {size : AluSize} {offset : Int}
    (hdst : ∀ o, dst = some o → o.val.Within Q) :
    ∀ o, aluObj dst src code size idx offset = some o → o.val.Within Q := by
  intro o ho
  unfold aluObj at ho
  dsimp only at ho
  split at ho
  · exact hdst o ho
  · obtain ⟨e, he, rfl⟩ := Option.map_eq_some_iff.mp ho
    refine within_exprAlu ?_ he
    intro d hd
    obtain ⟨o', ho', rfl⟩ := Option.map_eq_some_iff.mp hd
    exact hdst o' ho'

/-- The variable offset of a pointer after an addition to it. -/
theorem within_addVarOff {p : PTR Expr} (hp : (Expr.ptr p).Within Q)
    (hscalar : ∀ v, p.varOff = some v → v.isPTR = false) (src : Option Expr) (code : AluOp)
    (size : AluSize) (idx : Nat) : ∀ v, p.addVarOff src code size idx = some v → v.Within Q := by
  intro v hv
  refine within_exprAlu ?_ hv
  intro d hd
  obtain rfl := Option.some.inj hd
  cases hoff : p.varOff with
  | none => exact .plain rfl
  | some v => exact within_varOff hp hoff (hscalar v hoff)

/-- Arithmetic on a packet pointer moves it, or gives a length. -/
theorem within_pktAlu {code : AluOp} {p : PTR Expr} {src : Option Expr}
    (hp : (Expr.ptr p).Within Q) (hscalar : ∀ v, p.varOff = some v → v.isPTR = false) {o : Obj}
    (h : pktAlu idx code b p src = .ok (o, b')) : o.val.Within Q := by
  have htotal := within_totalOffset hp hscalar
  unfold pktAlu at h
  split at h
  · split at h
    · split at h
      · cases h
        exact .plain rfl
      · cases h
        have hdst : ∀ d, some p.totalOffset = some d → d.Within Q := by
          intro d hd
          cases hd
          exact htotal
        rename_i q _ _ _
        dsimp only [Obj.fresh]
        cases hdist : exprAlu (some p.totalOffset) (some q.totalOffset) .SUB .b8 idx with
        | none => exact htotal
        | some e => exact within_exprAlu hdst hdist
    · cases h
  · cases h
    exact hp.repoint rfl
  · cases h
    exact within_of_varOff (within_addVarOff hp hscalar src code .b4 idx)

theorem within_pktEndAlu {code : AluOp} {p q : PTR Expr} {o : Obj}
    (h : pktEndAlu idx code p q = .ok o) : o.val.Within Q := by
  unfold pktEndAlu at h
  split at h
  · cases h
  · split at h
    · cases h
      exact .plain rfl
    · cases h
      have hlen : ∀ d, some (Expr.pktLen 4 p.baseId) = some d → d.Within Q := by
        intro d hd
        cases hd
        exact .plain rfl
      dsimp only [Obj.fresh]
      cases hdist : exprAlu (some (.pktLen 4 p.baseId)) (some q.totalOffset) .SUB .b4 idx with
      | none => exact .plain rfl
      | some e => exact within_exprAlu hlen hdist

/-- Arithmetic on other pointers moves them, or loses the pointer. -/
theorem within_otherAlu {code : AluOp} {p : PTR Expr} {src : Option Expr}
    (hp : (Expr.ptr p).Within Q) (hscalar : ∀ v, p.varOff = some v → v.isPTR = false) {o : Obj}
    (h : otherAlu idx code p src = .ok o) : o.val.Within Q := by
  unfold otherAlu at h
  split at h
  · cases h
    exact hp.repoint rfl
  · split at h
    · cases h
      exact within_of_varOff (within_addVarOff hp hscalar src code .b8 idx)
    · cases h

theorem within_ptrAlu {code : AluOp} {o : Obj} {p : PTR Expr} {src : Option Expr}
    (ho : o.val = .ptr p) (h : o.val.Within Q)
    (hscalar : ∀ v, p.varOff = some v → v.isPTR = false) {out : Obj × Block}
    (hrun : ptrAlu idx code b o p src = .ok out) : out.1.val.Within Q := by
  have hp : (Expr.ptr p).Within Q := ho ▸ h
  unfold ptrAlu at hrun
  split at hrun
  · cases hrun
    exact h
  · split at hrun
    · cases hrun
    · split at hrun
      · exact within_pktAlu hp hscalar hrun
      · split at hrun
        · split at hrun
          · obtain ⟨o', hres, rfl⟩ := Lib.map_eq_ok.mp hrun
            exact within_pktEndAlu hres
          · obtain ⟨o', hres, rfl⟩ := Lib.map_eq_ok.mp hrun
            exact within_otherAlu hp hscalar hres
        · obtain ⟨o', hres, rfl⟩ := Lib.map_eq_ok.mp hrun
          exact within_otherAlu hp hscalar hres

theorem within_unaryAlu (instr : Instr) (size : AluSize) (dst : Option Expr) :
    (unaryAlu idx instr size dst).Within Q := by
  unfold unaryAlu
  split
  · split <;> exact .plain rfl
  · exact .plain rfl

theorem within_binaryAlu {instr : Instr} {size : AluSize} {dst src : Option Obj}
    (hdst : ∀ o, dst = some o → o.val.Within Q) :
    ∀ o, binaryAlu idx instr size dst src = some o → o.val.Within Q := by
  unfold binaryAlu
  dsimp only
  split
  · exact within_truncObj (within_aluObj hdst)
  · exact within_aluObj hdst

/-- An arithmetic instruction makes no join. -/
theorem within_aluResult (h : b.Within Q) {wf : Prop} (hbuilt : b.Built wf) {instr : Instr}
    {out : Option Obj × Block} (hrun : aluResult idx instr b = .ok out) :
    ∀ o, out.1 = some o → o.val.Within Q := by
  unfold aluResult at hrun
  dsimp only at hrun
  split at hrun
  · split at hrun
    · obtain ⟨v, hv, hout⟩ := Lib.bind_eq_ok.mp hrun
      cases hout
      intro o ho
      obtain ⟨e, rfl, rfl⟩ := Option.map_eq_some_iff.mp ho
      exact within_sext hv rfl
    · cases hrun
      dsimp only
      split
      · exact within_aluSource h instr
      · exact within_truncObj (within_aluSource h instr)
  · split at hrun
    · rename_i org p hp
      obtain ⟨x, hx, rfl⟩ := Lib.map_eq_ok.mp hrun
      have hheld : b.Holds ⟨org, .ptr p⟩ := .reg _ hp
      intro o ho
      cases ho
      apply within_ptrAlu rfl (h.held _ hheld) _ hx
      intro v hv
      exact ((hbuilt.held _ hheld).varOff hv).2
    · split at hrun
      · cases hrun
        intro o ho
        cases ho
        exact within_unaryAlu instr _ _
      · cases hrun
        apply within_binaryAlu
        intro o ho
        exact h.held o (.reg _ ho)

theorem within_trackAlu (h : b.Within Q) {wf : Prop} (hbuilt : b.Built wf) {instr : Instr}
    (hinstr : wf → instr.WellFormed) (halu : instr.isAlu)
    (hrun : trackAlu idx instr b = .ok b') : b'.Within Q := by
  obtain ⟨⟨new, b₁⟩, hres, hb'⟩ := Lib.bind_eq_ok.mp hrun
  cases hb'
  have hslots := (yields_aluResult hbuilt hinstr halu hres).slots
  exact (h.of_slots hslots).setReg _ (within_aluResult h hbuilt hres)

end Alu

section Memory

variable {b b' : Block} {idx : Nat}

/-- A load from the stack hands on a slot, or makes an operation of some. -/
theorem within_stkLoad (h : b.Within Q) {addr : Int} {size : Nat} {o : Obj}
    (hrun : b.stkLoad addr size = .ok o) : o.val.Within Q := by
  unfold Block.stkLoad at hrun
  dsimp only at hrun
  split at hrun
  · cases hrun
    exact .plain rfl
  · split at hrun
    · cases hrun
    · split at hrun
      · cases hrun
        exact .plain rfl
      · split at hrun
        · cases hrun
        · rename_i slot hslot
          split at hrun
          · cases hrun
            exact h.held _ (.stk (List.mem_of_getElem? (Option.join_eq_some_iff.mp hslot)))
          · cases hrun
            exact .plain rfl

/-- The context holds no joins. -/
theorem within_ctxLoad {p : PTR Expr} {addr : Int} {size : Nat} {e : Expr}
    (h : ctxLoad idx p addr size = .ok e) : e.Within Q := by
  unfold ctxLoad at h
  repeat' split at h
  all_goals cases h
  all_goals exact .plain rfl

/-- A load makes no join, wherever it reads. -/
theorem within_load (h : b.Within Q) {p : PTR Expr} {offset : Int} {size : Nat} {o : Obj}
    (hrun : load idx b p offset size = .ok (o, b')) : o.val.Within Q := by
  unfold load at hrun
  split at hrun
  · cases hrun
  · dsimp only at hrun
    split at hrun
    · obtain ⟨e, he, hout⟩ := Lib.map_eq_ok.mp hrun
      cases hout
      exact within_ctxLoad he
    · obtain ⟨o', ho', hout⟩ := Lib.map_eq_ok.mp hrun
      cases hout
      exact within_stkLoad h ho'
    · cases hrun
      exact .plain rfl
    · cases hrun
      exact .plain rfl
    · cases hrun
      exact .plain rfl
    · cases hrun
      unfold rodataLoad
      dsimp only [Obj.fresh]
      split <;> exact .plain rfl
    · cases hrun

theorem within_trackLoad (h : b.Within Q) {rodata : List UInt8} {instr : Instr}
    (hrun : trackLoad rodata idx instr b = .ok b') : b'.Within Q := by
  unfold trackLoad at hrun
  split at hrun
  · split at hrun
    · cases hrun
    · split at hrun
      · cases hrun
      · cases hrun
        apply h.result
        unfold wideLoad
        split <;> rfl
  · split at hrun
    · cases hrun
    · split at hrun
      · obtain ⟨⟨o, b₁⟩, hload, hrun⟩ := Lib.bind_eq_ok.mp hrun
        have hb₁ := h.of_slots (slots_load hload)
        dsimp only at hrun
        split at hrun
        · obtain ⟨v, hv, hb'⟩ := Lib.bind_eq_ok.mp hrun
          cases hb'
          apply hb₁.setReg
          intro o' ho'
          obtain ⟨e, rfl, rfl⟩ := Option.map_eq_some_iff.mp ho'
          exact within_sext hv rfl
        · cases hrun
          apply hb₁.setReg
          intro o' ho'
          cases ho'
          exact within_load h hload
      · cases hrun

theorem within_setStk (h : b.Within Q) {stk : List (Option Obj)}
    (hstk : ∀ o, some o ∈ stk → o.val.Within Q) : ({ b with stk := stk } : Block).Within Q := by
  constructor
  · intro o ho
    cases ho with
    | reg r hr => exact h.held o (.reg r hr)
    | stk hmem => exact hstk o hmem
  · exact h.tailCtx

/-- A store puts the value into its slot, or a value made of it. -/
theorem within_stkStore (h : b.Within Q) {addr : Int} {size : Nat} {value : Option Obj}
    (hvalue : ∀ o, value = some o → o.val.Within Q)
    (hrun : b.stkStore addr size value = .ok b') : b'.Within Q := by
  have hset : ∀ (n i : Nat) (new : Option Obj), (∀ o, new = some o → o.val.Within Q) →
      ∀ o, some o ∈ (b.stk ++ List.replicate n none).set i new → o.val.Within Q := by
    intro n i new hnew o ho
    rcases List.mem_or_eq_of_mem_set ho with ho | ho
    · rcases List.mem_append.mp ho with ho | ho
      · exact h.held o (.stk ho)
      · cases List.eq_of_mem_replicate ho
    · exact hnew o ho.symm
  -- a value that is cut or moved is the result of an operation
  have hstored : ∀ {cut move : Prop} [Decidable cut] [Decidable move] {n k : Int} {e : Expr},
      cut ∨ move → (if move then
        some (.binary .LSH
          (if cut then some (.binary .AND (value.map (·.val)) (some (.num n 8 (-1))) 0 .b8 b.idx)
            else value.map (·.val))
          (some (.num k 8 (-1))) 0 .b8 b.idx)
      else if cut then some (.binary .AND (value.map (·.val)) (some (.num n 8 (-1))) 0 .b8 b.idx)
        else value.map (·.val)) = some e → e.Within Q := by
    intro cut move _ _ n k e hcase he
    split at he
    · cases he
      exact .plain rfl
    · rename_i hmove
      rw [if_pos (hcase.resolve_right hmove)] at he
      cases he
      exact .plain rfl
  have hnew : ∀ (o : Obj) {new : Option Expr}, (size < 8 ∨ (addr % 8).toNat ≠ 0 → ∀ e,
      new = some e → e.Within Q) → (if (decide (size < 8) || decide ((addr % 8).toNat ≠ 0)) = true
        then new.map fun e => (⟨.instr b.idx 1, e⟩ : Obj) else value) = some o →
      o.val.Within Q := by
    intro o new hexpr ho
    split at ho
    · rename_i hcase
      obtain ⟨e, he, rfl⟩ := Option.map_eq_some_iff.mp ho
      exact hexpr (by simpa using hcase) e he
    · exact hvalue o ho
  unfold Block.stkStore at hrun
  dsimp only at hrun
  split at hrun
  · cases hrun
  · split at hrun
    · split at hrun
      · cases hrun
        apply within_setStk h (hset _ _ _ _)
        intro o ho
        exact hnew o (fun hcase e => hstored hcase) ho
      · cases hrun
        apply within_setStk h (hset _ _ _ _)
        intro o ho
        cases ho
        exact .plain rfl
    · cases hrun
      apply within_setStk h (hset _ _ _ _)
      intro o ho
      exact hnew o (fun hcase e => hstored hcase) ho

/-- A store puts a value into a slot, or leaves the slots. -/
theorem within_store (h : b.Within Q) {p : PTR Expr} {offset : Int} {size : Nat}
    {value : Option Obj} (hvalue : ∀ o, value = some o → o.val.Within Q)
    (hrun : store b p offset size value = .ok b') : b'.Within Q := by
  unfold store at hrun
  split at hrun
  · cases hrun
  · dsimp only at hrun
    split at hrun
    · exact within_stkStore h hvalue hrun
    · split at hrun
      · cases hrun
      · split at hrun
        · cases hrun
        · cases hrun
          exact h.of_slots rfl
    · cases hrun
      exact h.of_slots rfl
    · cases hrun
      exact h.of_slots rfl
    · cases hrun
      exact h.of_slots rfl
    · cases hrun

theorem within_atomicStack (h : b.Within Q) {instr : Instr} {addr : Int} {size : Nat}
    {src : Option Obj} (hsrc : ∀ o, src = some o → o.val.Within Q)
    (hrun : atomicStack idx b instr addr size src = .ok b') : b'.Within Q := by
  obtain ⟨old, hold, hrun⟩ := Lib.bind_eq_ok.mp hrun
  have hfetch : ∀ o, some old = some o → o.val.Within Q := by
    intro o ho
    cases ho
    exact within_stkLoad h hold
  dsimp only at hrun
  split at hrun
  · obtain ⟨b₁, hstore, hrun⟩ := Lib.bind_eq_ok.mp hrun
    have hb₁ : b₁.Within Q := by
      apply within_stkStore h _ hstore
      intro o ho
      obtain ⟨new, hnew, rfl⟩ := Option.map_eq_some_iff.mp ho
      have hval := within_aluObj hfetch new hnew
      split <;> exact hval
    cases hrun
    split
    · exact hb₁.setReg _ hfetch
    · exact hb₁
  · split at hrun
    · obtain ⟨b₁, hstore, hrun⟩ := Lib.bind_eq_ok.mp hrun
      cases hrun
      exact (within_stkStore h hsrc hstore).setReg _ hfetch
    · cases hrun

/-- An atomic instruction on memory hands on what it reads. -/
theorem within_atomicMemory (h : b.Within Q) {instr : Instr} {p : PTR Expr} {size : Nat}
    {src : Option Obj} (hrun : atomicMemory idx b instr p size src = .ok b') : b'.Within Q := by
  obtain ⟨⟨old, b₁⟩, hload, hrun⟩ := Lib.bind_eq_ok.mp hrun
  have hb₁ := h.of_slots (slots_load hload)
  dsimp only at hrun
  split at hrun
  · cases hrun
  · cases hrun
    have hemit : ∀ a a' : Action,
        (if p.ptrType = .MAP_VALUE then b₁.emit a else b₁.emit a').Within Q := by
      intro a a'
      split <;> exact hb₁.of_slots rfl
    split
    · apply (hemit _ _).setReg
      intro o ho
      cases ho
      exact within_load h hload
    · exact hemit _ _

theorem within_trackStore (h : b.Within Q) {instr : Instr}
    (hrun : trackStore idx instr b = .ok b') : b'.Within Q := by
  have hsrc : ∀ o, (if instr.opcodeClass = .ST then some (Obj.fresh idx (imm64 instr.imm))
      else b.regs instr.srcReg) = some o → o.val.Within Q := by
    intro o ho
    split at ho
    · cases ho
      exact .plain rfl
    · exact h.held o (.reg _ ho)
  unfold trackStore at hrun
  dsimp only at hrun
  split at hrun
  · cases hrun
  · cases hrun
  · split at hrun
    · exact within_store h hsrc hrun
    · cases hrun
  · split at hrun
    · cases hrun
    · split at hrun
      · split at hrun
        · exact within_atomicStack h hsrc hrun
        · split at hrun
          · exact within_atomicMemory h hrun
          · cases hrun
      · cases hrun
  · cases hrun

end Memory

section Call

variable {b b' : Block} {idx : Nat}

theorem within_scalarResult (h : b.Within Q) (idx : Nat) : (b.scalarResult idx).Within Q :=
  h.result rfl 0 idx

theorem within_mapLookup (h : b.Within Q) {maps : List MapInfo}
    (hrun : mapLookup maps idx b = .ok b') : b'.Within Q := by
  unfold mapLookup at hrun
  split at hrun
  · obtain ⟨info, -, hrun⟩ := Lib.bind_eq_ok.mp hrun
    obtain ⟨⟨key, b₁⟩, hload, hrun⟩ := Lib.bind_eq_ok.mp hrun
    have hb₁ := h.of_slots (slots_load hload)
    cases hrun
    refine (hb₁.result ?_ 0 idx).of_slots rfl
    rfl
  · cases hrun

theorem within_mapUpdate (h : b.Within Q) {maps : List MapInfo}
    (hrun : mapUpdate maps idx b = .ok b') : b'.Within Q := by
  unfold mapUpdate at hrun
  split at hrun
  · obtain ⟨info, -, hrun⟩ := Lib.bind_eq_ok.mp hrun
    obtain ⟨⟨key, b₁⟩, hkey, hrun⟩ := Lib.bind_eq_ok.mp hrun
    obtain ⟨⟨value, b₂⟩, hvalue, hrun⟩ := Lib.bind_eq_ok.mp hrun
    have hb₁ := h.of_slots (slots_load hkey)
    have hb₂ := hb₁.of_slots (slots_load hvalue)
    cases hrun
    exact within_scalarResult (hb₂.emit _) idx
  · cases hrun
    exact within_scalarResult h idx

theorem within_mapDelete (h : b.Within Q) {maps : List MapInfo}
    (hrun : mapDelete maps idx b = .ok b') : b'.Within Q := by
  unfold mapDelete at hrun
  split at hrun
  · obtain ⟨info, -, hrun⟩ := Lib.bind_eq_ok.mp hrun
    obtain ⟨⟨key, b₁⟩, hkey, hrun⟩ := Lib.bind_eq_ok.mp hrun
    have hb₁ := h.of_slots (slots_load hkey)
    cases hrun
    exact within_scalarResult (hb₁.emit _) idx
  · cases hrun
    exact within_scalarResult h idx

theorem within_adjustCall (h : b.Within Q) {imm : Int} {action : Int → Action}
    {out : PTR Expr × Block} (hrun : adjustCall idx imm b action = .ok out) : out.2.Within Q := by
  obtain ⟨ctx, -, hrun⟩ := Lib.bind_eq_ok.mp hrun
  obtain ⟨delta, -, hrun⟩ := Lib.bind_eq_ok.mp hrun
  cases hrun
  refine (h.result ?_ 0 idx).of_slots rfl
  rfl

/-- A pointer under another view of its null check keeps its offset. -/
theorem within_withView {o : Obj} (h : o.val.Within Q) (baseId : Option Int) (copy : Origin) :
    (withView o baseId copy).val.Within Q := by
  unfold withView
  split
  · rename_i p hp
    split
    · exact h
    · have hp' : (Expr.ptr p).Within Q := hp ▸ h
      exact hp'.repoint rfl
  · exact h

theorem within_setCtxView (h : b.Within Q) (baseId : Option Int) :
    (b.setCtxView baseId).Within Q := by
  constructor
  · intro o ho
    cases ho with
    | reg r hr =>
        obtain ⟨o', ho', rfl⟩ := Option.map_eq_some_iff.mp hr
        exact within_withView (h.held o' (.reg r ho')) _ _
    | stk hmem =>
        obtain ⟨⟨v, k⟩, hvk, hv⟩ := List.mem_map.mp hmem
        obtain ⟨o', rfl, rfl⟩ := Option.map_eq_some_iff.mp hv
        exact within_withView (h.held o' (.stk (List.fst_mem_of_mem_zipIdx hvk))) _ _
  · exact h.tailCtx

/-- A tail call hands the slots on to the callee. -/
theorem within_tailCall (h : b.Within Q) {P : Program} {blocks : List Block}
    (hrun : tailCall P blocks idx b = .ok b') : b'.Within Q := by
  obtain ⟨region, -, hrun⟩ := Lib.bind_eq_ok.mp hrun
  split at hrun
  · rename_i org ctx map hctx hmap
    split at hrun
    · cases hrun
    · obtain ⟨info, -, hrun⟩ := Lib.bind_eq_ok.mp hrun
      split at hrun
      · cases hrun
      · cases hrun
        apply within_scalarResult
        constructor
        · intro o ho
          cases ho with
          | reg r hr => exact h.held o (.reg r hr)
          | stk hmem => exact h.held o (.stk hmem)
        · intro o ho
          cases ho
          exact h.held _ (.reg 1 hctx)
  · cases hrun

/-- A helper returns a pointer, a result or a scalar. -/
theorem within_helperCall (h : b.Within Q) {P : Program} {blocks : List Block} {imm : Int}
    (hrun : helperCall P blocks idx imm b = .ok b') : b'.Within Q := by
  cases helperCall_step hrun with
  | mapLookup hstep => exact within_mapLookup h hstep
  | mapUpdate hstep => exact within_mapUpdate h hstep
  | mapDelete hstep => exact within_mapDelete h hstep
  | named _ r _ hstep =>
      have hnamed : (namedResult idx b r).Within Q := by
        refine (h.result ?_ 0 idx).of_slots rfl
        rfl
      exact hstep ▸ hnamed
  | perfEventOutput hstep =>
      exact hstep ▸ within_scalarResult (h.emit .perfEventOutput) idx
  | adjustHead hstep =>
      obtain ⟨⟨ctx, b₁⟩, hcall, hstep⟩ := Lib.bind_eq_ok.mp hstep
      cases hstep
      have hb₁ : b₁.Within Q := within_adjustCall h hcall
      exact within_setCtxView (hb₁.of_slots (by rfl)) none
  | tailCall hstep => exact within_tailCall h hstep
  | adjustMeta hstep => exact within_adjustCall h hstep
  | adjustTail hstep => exact within_adjustCall h hstep
  | buffLen hstep =>
      have hlen : (b.setReg 0 (some (.fresh idx (.pktLen 8 b.pktBaseId)))).Within Q :=
        h.result rfl 0 idx
      exact hstep ▸ hlen.emit .xdpBuffLen

theorem within_trackCall (h : b.Within Q) {P : Program} {blocks : List Block} {instr : Instr}
    (hrun : trackCall P blocks idx instr b = .ok b') : b'.Within Q := by
  unfold trackCall at hrun
  split at hrun
  · cases hrun
    exact within_scalarResult h idx
  · obtain ⟨b₁, hcall, hrun⟩ := Lib.bind_eq_ok.mp hrun
    cases hrun
    refine List.foldlRecOn _ _ (motive := Block.Within Q) (within_helperCall h hcall) ?_
    intro b₂ hb₂ r _
    apply hb₂.setReg
    intro o ho
    cases ho

end Call

section Step

variable {P : Program} {blocks : List Block} {b b' : Block} {wf : Prop}

/-- One instruction makes no join. -/
theorem within_trackInstr (hP : wf → ∀ i ∈ P.instrs, i.WellFormed) {idx : Nat}
    (h : b.Within Q) (hbuilt : b.Built wf) (hrun : trackInstr P blocks b idx = .ok b') :
    b'.Within Q := by
  have hidx : ({ b with idx := idx } : Block).Within Q := h.of_slots rfl
  have hbuilt : ({ b with idx := idx } : Block).Built wf := hbuilt.of_slots rfl
  unfold trackInstr at hrun
  dsimp only at hrun
  split at hrun
  · cases hrun
  · rename_i instr hget
    split at hrun
    · rename_i halu
      exact within_trackAlu hidx hbuilt (fun hwf => hP hwf instr (List.mem_of_getElem? hget)) halu hrun
    · split at hrun
      · exact within_trackLoad hidx hrun
      · split at hrun
        · exact within_trackStore hidx hrun
        · split at hrun
          · exact within_trackCall hidx hrun
          · split at hrun
            · exact hidx.of_slots (slots_trackBranch hrun)
            · cases hrun
              exact hidx

/-- Several instructions make none. -/
theorem within_trackInstrs (hP : wf → ∀ i ∈ P.instrs, i.WellFormed) {idxs : List Nat}
    (h : b.Within Q) (hbuilt : b.Built wf)
    (hrun : idxs.foldlM (trackInstr P blocks) b = .ok b') : b'.Within Q :=
  (Lib.foldlM_ok (fun _ b => b.Within Q ∧ b.Built wf) ⟨h, hbuilt⟩
    (fun _ _ _ _ hs _ hstep =>
      ⟨within_trackInstr hP hs.1 hs.2 hstep, built_trackInstr hP hs.2 hstep⟩) hrun).1

end Step

end Hornet
