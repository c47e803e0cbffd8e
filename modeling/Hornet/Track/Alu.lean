import Hornet.Track.Block

/-!
The tracking of ALU instructions. A move hands on the object it reads; every
other instruction makes a new one, except for an addition of zero.
-/

namespace Hornet

/-- The object an instruction makes. -/
def Obj.fresh (idx : Nat) (e : Expr) : Obj := ⟨.instr idx 0, e⟩

def VAR_OFF_REGIONS : List PtrType := [.PKT, .MAP_VALUE, .BSS, .DATA, .RODATA]

/-- The source operand of an ALU instruction. -/
def aluSource (idx : Nat) (instr : Instr) (b : Block) : Option Obj :=
  match instr.opcodeS with
  | .reg => b.regs instr.srcReg
  | .imm => some (.fresh idx
      (if instr.opcodeClass = .ALU64 then imm64 instr.imm else .num instr.imm 4 (-1)))

/-- `trunc32` of an object. A pointer and a value that fits stay the same object. -/
def truncObj (idx : Nat) (o : Option Obj) : Option Obj :=
  o.bind fun o =>
    if o.val.isPTR || (o.val.num?.isNone && o.val.size ≤ 4) then some o
    else (trunc32 (some o.val) idx).map (.fresh idx)

/-- `exprAlu` of two objects. -/
def aluObj (dst src : Option Obj) (code : AluOp) (size : AluSize) (idx : Nat) (offset : Int) :
    Option Obj :=
  let d := dst.map (·.val)
  let s := src.map (·.val)
  if exprAluKeepsDst d s code then dst else (exprAlu d s code size idx offset).map (.fresh idx)

/-- The variable offset after `src` was added or subtracted. -/
def PTR.addVarOff (p : PTR Expr) (src : Option Expr) (code : AluOp) (size : AluSize) (idx : Nat) :
    Option Expr :=
  exprAlu (some (p.varOff.getD (.num 0 8 (-1)))) src code size idx

/-- Arithmetic on a packet pointer. -/
def pktAlu (idx : Nat) (code : AluOp) (b : Block) (p : PTR Expr) (src : Option Expr) :
    Except TrackError (Obj × Block) :=
  match src.bind Expr.ptr?, src.bind Expr.num? with
  | some q, _ =>
      if q.ptrType = .PKT && code = .SUB then
        if p.baseId ≠ q.baseId then pure (.fresh idx (.scalar 8 idx), b)
        else
          let distance := exprAlu (some p.totalOffset) (some q.totalOffset) .SUB .b8 idx
          pure (.fresh idx (distance.getD p.totalOffset), b)
      else throw (.twoPointers idx)
  | none, some n =>
      pure (.fresh idx (.ptr
        { ptrType := .PKT, off := p.off + (if code = .ADD then n else -n), varOff := p.varOff,
          id := p.id, baseId := p.baseId }), b)
  | none, none =>
      let varOff := p.addVarOff src code .b4 idx
      let (pid, b) := b.newPtrId
      pure (.fresh idx (.ptr
        { ptrType := .PKT, off := p.off, varOff := varOff, id := pid, baseId := p.baseId }),
        b.setPktFacts { id := some pid, baseId := p.baseId })

/-- The end of the packet less a packet pointer. -/
def pktEndAlu (idx : Nat) (code : AluOp) (p q : PTR Expr) : Except TrackError Obj :=
  if code ≠ .SUB then throw (.pktEndOnlySubtracted idx)
  else if p.baseId ≠ q.baseId then
    pure (.fresh idx (.binary .SUB (some (.ptr p)) (some (.ptr q)) 0 .b4 idx))
  else
    let len : Expr := .pktLen 4 p.baseId
    pure (.fresh idx ((exprAlu (some len) (some q.totalOffset) .SUB .b4 idx).getD len))

/-- Arithmetic on any other pointer. -/
def otherAlu (idx : Nat) (code : AluOp) (p : PTR Expr) (src : Option Expr) :
    Except TrackError Obj :=
  match src.bind Expr.num? with
  | some n =>
      pure (.fresh idx (.ptr { p with off := if code = .ADD then p.off + n else p.off - n }))
  | none =>
      if VAR_OFF_REGIONS.contains p.ptrType then
        pure (.fresh idx (.ptr { p with varOff := p.addVarOff src code .b8 idx }))
      else throw (.variableOffset p.ptrType idx)

/-- An instruction other than a move on the pointer `o`. -/
def ptrAlu (idx : Nat) (code : AluOp) (b : Block) (o : Obj) (p : PTR Expr) (src : Option Expr) :
    Except TrackError (Obj × Block) :=
  if p.checkedNull.isNone then pure (o, b)
  else if code ≠ .ADD && code ≠ .SUB then throw (.unallowedArithmetic code p.ptrType)
  else if p.ptrType = .PKT then pktAlu idx code b p src
  else
    match p.ptrType, src.bind Expr.ptr? with
    | .PKT_END, some q =>
        if q.ptrType = .PKT then (pktEndAlu idx code p q).map (·, b)
        else (otherAlu idx code p src).map (·, b)
    | _, _ => (otherAlu idx code p src).map (·, b)

/-- The size of the result of a negation or a byte swap. -/
def unaryWidth (instr : Instr) (size : AluSize) : Nat :=
  if instr.aluCode = .NEG then size.bytes
  else if instr.imm = 16 || instr.imm = 32 || instr.imm = 64 then (instr.imm / 8).toNat
  else 8

/-- A negation or a byte swap of a value that is no pointer. -/
def unaryAlu (idx : Nat) (instr : Instr) (size : AluSize) (dst : Option Expr) : Expr :=
  match instr.aluCode, dst with
  | .NEG, some (.num n _ _) =>
      match size with
      | .b8 => .num (arith .NEG n 0 64 false) 8 idx
      | .b4 => .num (arith .NEG n 0 32 false) 4 idx
  | code, dst =>
      .unary code dst instr.opcodeS instr.imm (unaryWidth instr size) (instr.opcodeClass = .ALU64)

/-- Any other instruction on a value that is no pointer. -/
def binaryAlu (idx : Nat) (instr : Instr) (size : AluSize) (dst src : Option Obj) : Option Obj :=
  let offset := if instr.aluCode = .DIV || instr.aluCode = .MOD then instr.offset else 0
  let new := aluObj dst src instr.aluCode size idx offset
  if size = .b4 && exprAluKeepsDst (dst.map (·.val)) (src.map (·.val)) instr.aluCode then
    truncObj idx new
  else new

/-- What an ALU instruction writes to its destination. -/
def aluResult (idx : Nat) (instr : Instr) (b : Block) : Except TrackError (Option Obj × Block) :=
  let size : AluSize := if instr.opcodeClass = .ALU64 then .b8 else .b4
  let src := aluSource idx instr b
  let dst := b.regs instr.dstReg
  if instr.aluCode = .MOV then
    if instr.offset ≠ 0 then do
      let v ← sext (src.map (·.val)) instr.offset size.bytes idx
      pure (v.map (.fresh idx), b)
    else pure (if size = .b8 then src else truncObj idx src, b)
  else
    match dst with
    | some ⟨org, .ptr p⟩ =>
        (ptrAlu idx instr.aluCode b ⟨org, .ptr p⟩ p (src.map (·.val))).map fun x =>
          (some x.1, x.2)
    | dst =>
        if instr.aluCode = .NEG || instr.aluCode = .END then
          pure (some (.fresh idx (unaryAlu idx instr size (dst.map (·.val)))), b)
        else pure (binaryAlu idx instr size dst src, b)

def trackAlu (idx : Nat) (instr : Instr) (b : Block) : Except TrackError Block := do
  let (new, b) ← aluResult idx instr b
  pure (b.setReg instr.dstReg new)

end Hornet
