import Hornet.Track.Alu
import Hornet.Track.Encode

/-!
The tracker. It runs every block once, predecessors first, and leaves in each
block the values of its registers and stack slots, the actions it performs and
the condition of its branch.
-/

namespace Hornet

/-- What the tracker is given. -/
structure Program where
  instrs : List Instr
  maps : List MapInfo
  progs : List ProgRegion
  rodata : List UInt8

/-- The number whose bytes are given lowest first. -/
def bytesNat : List UInt8 → Nat
  | [] => 0
  | b :: bs => b.toNat + 256 * bytesNat bs

/-- A read of constant data: a constant itself when its offset is. -/
def rodataLoad (p : PTR Expr) (addr : Int) (size : Nat) : Expr :=
  let base := p.rodataOffset.getD 0 + addr
  match p.varOff with
  | some _ => .rodataVal p.rodataData base p.varOff size
  | none =>
      let chunk := if 0 ≤ base then (p.rodataData.drop base.toNat).take size else []
      .num (bytesNat chunk) size (-1)

/-- The pointers that the context holds. -/
def ctxRegion (addr : Int) : Option PtrType :=
  if addr = 0 then some .PKT
  else if addr = 4 then some .PKT_END
  else if addr = 8 then some .PKT_META
  else none

def ctxLoad (idx : Nat) (p : PTR Expr) (addr : Int) (size : Nat) : Except TrackError Expr :=
  if size ≠ 4 then throw .ctxAccessSize
  else
    match ctxRegion addr with
    | some region => pure (.ptr { ptrType := region, id := idx, baseId := p.baseId })
    | none =>
        if addr = 12 then pure .ingressIfindex
        else if addr = 16 then pure .rxQueueIndex
        else if addr = 20 then pure .egressIfindex
        else throw (.ctxAccessOffset addr)

/-- The value of a read through `p`. A read of memory is also a source of the block. -/
def load (idx : Nat) (b : Block) (p : PTR Expr) (offset : Int) (size : Nat) :
    Except TrackError (Obj × Block) :=
  if p.checkedNull ≠ some false then throw .loadNotNonNull
  else
    let addr := p.off + offset
    let source (e : Expr) : Obj × Block := (.fresh idx e, b.addSource e)
    match p.ptrType with
    | .CTX => (ctxLoad idx p addr size).map fun e => (.fresh idx e, b)
    | .STK => (b.stkLoad addr size).map (·, b)
    | .PKT => pure (source (.pktVal b.num idx addr p.varOff size))
    | .MAP_VALUE =>
        pure (source (.mapVal b.num idx p.mapId p.mapKey p.mapKeyId addr p.varOff size))
    | .BSS => pure (source (.bssVal b.num idx p.bssIdx addr p.varOff size))
    | .RODATA => pure (.fresh idx (rodataLoad p addr size), b)
    | t => throw (.unallowedLoad t)

/-- The value of an `lddw`. -/
def wideLoad (rodata : List UInt8) (instr : Instr) : Expr :=
  match instr.reloc with
  | some (.map tag) => .ptr { ptrType := .MAP, id := NO_FACT_ID, mapId := some tag }
  | some (.bss tag offset) =>
      .ptr { ptrType := .BSS, off := offset, id := NO_FACT_ID, bssIdx := tag }
  | some (.rodata offset) =>
      .ptr { ptrType := .RODATA, id := NO_FACT_ID, rodataOffset := some offset,
             rodataData := rodata }
  | none => .num (instr.nextImm / 2 ^ 32 % 2 ^ 32 * 2 ^ 32 + instr.imm % 2 ^ 32) 8 (-1)

def trackLoad (rodata : List UInt8) (idx : Nat) (instr : Instr) (b : Block) :
    Except TrackError Block :=
  match instr.opcodeClass with
  | .LD =>
      if instr.opcodeMode ≠ .IMM then throw (.ldMode instr.opcodeMode)
      else if !instr.wideInstr || instr.srcReg ≠ 0 then throw (.relocation idx)
      else pure (b.setReg instr.dstReg (some (.fresh idx (wideLoad rodata instr))))
  | _ =>
      if instr.opcodeMode ≠ .MEM && instr.opcodeMode ≠ .MEMSX then throw (.ldxMode instr.opcodeMode)
      else
        match b.reg instr.srcReg with
        | some (.ptr p) => do
            let size := szMap instr.opcodeSz
            let (o, b) ← load idx b p instr.offset size
            if instr.opcodeMode = .MEMSX && size < 8 then do
              let v ← sext (some o.val) (size * 8 : Nat) 8 idx
              pure (b.setReg instr.dstReg (v.map (.fresh idx)))
            else pure (b.setReg instr.dstReg (some o))
        | _ => throw (.srcRegNotPTR instr.srcReg)

/-- A store of `value` through `p`. -/
def store (b : Block) (p : PTR Expr) (offset : Int) (size : Nat) (value : Option Obj) :
    Except TrackError Block :=
  if p.checkedNull ≠ some false then throw .storeNotNonNull
  else
    let addr := p.off + offset
    let v := value.map (·.val)
    match p.ptrType with
    | .STK => b.stkStore addr size value
    | .CTX =>
        if addr ≠ 16 then throw .ctxWriteAddr
        else if size ≠ 4 then throw .ctxWriteSize
        else pure (b.emit (.ctxWrite v))
    | .MAP_VALUE => pure (b.emit (.mapWrite p.mapId p.mapKey addr size v p.varOff))
    | .BSS => pure (b.emit (.bssWrite p.bssIdx addr size v p.varOff))
    | .PKT => pure (b.emit (.pktWrite p.id addr p.varOff size v))
    | t => throw (.unallowedStore t)

/-- The operation bits of an atomic instruction. -/
def atomicOp (imm : Int) : Int := imm / 16 % 16 * 16

def atomicFetch (imm : Int) : Bool := imm % 2 = 1

/-- The ALU operation of an atomic instruction on the stack. -/
def atomicAlu (op : Int) : Option AluOp :=
  if op = 0x00 then some .ADD
  else if op = 0x40 then some .OR
  else if op = 0x50 then some .AND
  else if op = 0xa0 then some .XOR
  else none

/-- An atomic instruction on a stack slot. -/
def atomicStack (idx : Nat) (b : Block) (instr : Instr) (addr : Int) (size : Nat)
    (src : Option Obj) : Except TrackError Block := do
  let old ← b.stkLoad addr size
  let op := atomicOp instr.imm
  let fetch := atomicFetch instr.imm
  match atomicAlu op with
  | some code =>
      let width : AluSize := if size = 4 then .b4 else .b8
      -- the sum is an object of its own, unless it is the old value
      let new := (aluObj (some old) src code width idx 0).map fun o =>
        if exprAluKeepsDst (some old.val) (src.map (·.val)) code then o
        else ⟨.instr idx 2, o.val⟩
      let b ← b.stkStore addr size new
      pure (if fetch then b.setReg instr.srcReg (some old) else b)
  | none =>
      if op = 0xe0 && fetch then do
        let b ← b.stkStore addr size src
        pure (b.setReg instr.srcReg (some old))
      else throw (.atomicNotImplemented op)

/-- An atomic addition to a map value or a `.bss` symbol. -/
def atomicMemory (idx : Nat) (b : Block) (instr : Instr) (p : PTR Expr) (size : Nat)
    (src : Option Obj) : Except TrackError Block := do
  let (old, b) ← load idx b p instr.offset size
  let addr := p.off + instr.offset
  let v := src.map (·.val)
  if atomicOp instr.imm ≠ 0 then throw (.atomicNotImplemented (atomicOp instr.imm))
  else
    let b :=
      if p.ptrType = .MAP_VALUE then
        b.emit (.mapAtomicAdd p.mapId p.mapKey addr size v p.varOff (some old.val))
      else b.emit (.bssAtomicAdd p.bssIdx addr size v p.varOff (some old.val))
    pure (if atomicFetch instr.imm then b.setReg instr.srcReg (some old) else b)

def trackStore (idx : Nat) (instr : Instr) (b : Block) : Except TrackError Block :=
  let size := szMap instr.opcodeSz
  let src : Option Obj :=
    if instr.opcodeClass = .ST then some (.fresh idx (imm64 instr.imm)) else b.regs instr.srcReg
  let dst := b.reg instr.dstReg
  match instr.opcodeMode with
  | .ABS | .IND => throw .legacyPacketAccess
  | .MEM =>
      match dst with
      | some (.ptr p) => store b p instr.offset size src
      | _ => throw (.dstRegNotPTR instr.dstReg)
  | .ATOMIC =>
      if instr.opcodeClass ≠ .STX then throw (.stxMode .ATOMIC)
      else
        match dst with
        | some (.ptr p) =>
            if p.ptrType = .STK then atomicStack idx b instr (p.off + instr.offset) size src
            else if p.ptrType = .MAP_VALUE || p.ptrType = .BSS then
              atomicMemory idx b instr p size src
            else throw .atomicTarget
        | _ => throw .atomicTarget
  | mode => throw (.stxMode mode)

/-- The result of an adjustment that a value is computed from. -/
def adjustRetIn : Expr → Option (FuncRetval Expr)
  | .funcRetval r => if r.func = 44 || r.func = 54 || r.func = 65 then some r else none
  | .binary _ dst src _ _ _ =>
      if (src.bind Expr.num?).isSome then
        match dst with
        | some d => adjustRetIn d
        | none => none
      else if (dst.bind Expr.num?).isSome then
        match src with
        | some s => adjustRetIn s
        | none => none
      else none
  | .unary .MOV dst _ _ _ _ =>
      match dst with
      | some d => adjustRetIn d
      | none => none
  | _ => none

/-- The value of an expression when the call `rv` returned `ret`. -/
def evalAt (rv : FuncRetval Expr) (ret : Int) : Expr → Option Int
  | .funcRetval r => if r.idx = rv.idx && r.func = rv.func then some (ret % 2 ^ 64) else none
  | .num n _ _ => some (n % 2 ^ 64)
  | .binary op dst src offset size _ =>
      match dst, src with
      | some d, some s => do
          let a ← evalAt rv ret d
          let b ← evalAt rv ret s
          pure (arith op a b (8 * size.bytes) (offset = 1) % 2 ^ 64)
      | _, _ => none
  | .unary .MOV dst _ imm size _ =>
      match dst with
      | some d => do
          let a ← evalAt rv ret d
          pure (signedOf imm.toNat (a % 2 ^ imm.toNat) % 2 ^ (8 * size))
      | none => none
  | _ => none

/-- Whether a comparison of two numbers holds. -/
def jmpTaken (code : JmpOp) (a b : Int) (jmp32 : Bool) : Bool :=
  let bits := if jmp32 then 32 else 64
  let a := a % 2 ^ bits
  let b := b % 2 ^ bits
  let sa := signedOf bits a
  let sb := signedOf bits b
  match code with
  | .JEQ => a = b
  | .JNE => a ≠ b
  | .JSET => Int.land a b ≠ 0
  | .JGT => a > b
  | .JGE => a ≥ b
  | .JLT => a < b
  | .JLE => a ≤ b
  | .JSGT => sa > sb
  | .JSGE => sa ≥ sb
  | .JSLT => sa < sb
  | .JSLE => sa ≤ sb
  | _ => false

/-- Whether the branch is taken when the adjustment succeeded and when it failed. -/
def adjustOutcome (code : JmpOp) (jmp32 : Bool) (rv : FuncRetval Expr) (dst src : Option Expr) :
    Option (Bool × Bool) := do
  let okDst ← dst.bind (evalAt rv 0)
  let okSrc ← src.bind (evalAt rv 0)
  let failedDst ← dst.bind (evalAt rv (-EINVAL))
  let failedSrc ← src.bind (evalAt rv (-EINVAL))
  pure (jmpTaken code okDst okSrc jmp32, jmpTaken code failedDst failedSrc jmp32)

/-- A branch on the result of an adjustment. -/
def adjustBranch (b : Block) (rv : FuncRetval Expr) (okTaken : Bool) : Block :=
  let b := { b with cond := some (.adjustHeadCheck okTaken rv.idx) }
  match b.adjustPending with
  | some (idx, before) =>
      if (idx : Int) = rv.idx then
        { b with
          condT := some (.adjust ⟨rv.idx, if okTaken then some rv.idx else before⟩)
          condF := some (.adjust ⟨rv.idx, if okTaken then before else some rv.idx⟩) }
      else b
  | none => b

/-- A test of the undecided pointer `p` against null. -/
def nullBranch (b : Block) (code : JmpOp) (p : PTR Expr) : Block :=
  let pid := nullFactId p
  let isNull : Option EdgeFact := some (.ptr ⟨pid, true⟩)
  let notNull : Option EdgeFact := some (.ptr ⟨pid, false⟩)
  let b :=
    if code = .JEQ then { b with condT := isNull, condF := notNull }
    else { b with condF := isNull, condT := notNull }
  match p.nullPhi with
  | some phi => { b with cond := some (.cmp code (some phi) (some (.num 0 1 (-1))) false) }
  | none =>
      if p.ptrType = .MAP_VALUE then
        { b with cond := some (.containMapValue p.mapId p.mapKey p.mapKeyId (code ≠ .JEQ)) }
      else b

/-- Whether a comparison is one of a packet pointer with the end of its packet. -/
def pktSizeCheck (dst src : Option Expr) : Bool :=
  match dst.bind Expr.ptr?, src.bind Expr.ptr? with
  | some p, some q =>
      ((p.ptrType = .PKT && q.ptrType = .PKT_END) || (p.ptrType = .PKT_END && q.ptrType = .PKT)) &&
        p.baseId = q.baseId
  | _, _ => false

/-- The comparison with its operands exchanged. -/
def mirrorJmpCode : JmpOp → Option JmpOp
  | .JGT => some .JLT
  | .JGE => some .JLE
  | .JLT => some .JGT
  | .JLE => some .JGE
  | _ => none

/-- A comparison of the packet pointer `p` with the end of its packet. -/
def pktSizeBranch (b : Block) (code : JmpOp) (p : PTR Expr) : Except TrackError Block :=
  let fact (minLen maxLen : Option Int) : Option EdgeFact :=
    some (.pkt { id := some p.id, baseId := p.baseId, minLen := minLen, maxLen := maxLen })
  let cond : Option Condition :=
    some (.cmp code (some p.totalOffset) (some (.pktLen 4 p.baseId)) false)
  match code with
  | .JGT => pure { b with
      cond := cond, condT := fact none (some (p.off - 1)), condF := fact (some p.off) none }
  | .JGE => pure { b with
      cond := cond, condT := fact none (some p.off), condF := fact (some (p.off + 1)) none }
  | .JLT => pure { b with
      cond := cond, condT := fact (some (p.off + 1)) none, condF := fact none (some p.off) }
  | .JLE => pure { b with
      cond := cond, condT := fact (some p.off) none, condF := fact none (some (p.off + 1)) }
  | code => throw (.unidentifiedComparison code)

/-- A branch that tests no adjustment. -/
def compareBranch (b : Block) (code : JmpOp) (dst src : Option Expr) (jmp32 : Bool) :
    Except TrackError Block :=
  match dst with
  | some (.ptr p) =>
      if p.checkedNull.isNone then
        if (src.bind Expr.num?) ≠ some 0 then throw .nullTestOperand
        else if code = .JEQ || code = .JNE then pure (nullBranch b code p)
        else pure b
      else compare
  | _ => compare
where
  compare : Except TrackError Block :=
    if pktSizeCheck dst src then
      match dst, src with
      | _, some (.ptr q) =>
          if q.ptrType = .PKT then
            match mirrorJmpCode code with
            | some code => pktSizeBranch b code q
            | none => throw (.unidentifiedComparison code)
          else
            match dst with
            | some (.ptr p) => pktSizeBranch b code p
            | _ => throw (.unidentifiedComparison code)
      | _, _ => throw (.unidentifiedComparison code)
    else pure { b with cond := some (.cmp code dst src jmp32) }

/-- Exchanges the operands of a comparison of the constant zero with an undecided
pointer. The code becomes that of the opposite condition. -/
def swapOperands (code : JmpOp) (dst src : Option Expr) : JmpOp × Option Expr × Option Expr :=
  match dst, src with
  | some (.num 0 _ _), some (.ptr p) =>
      if code ≠ .JSET && p.checkedNull.isNone then ((swapJmpCode code).getD code, src, dst)
      else (code, dst, src)
  | _, _ => (code, dst, src)

/-- The source operand of a branch. -/
def branchSource (instr : Instr) (b : Block) : Option Expr :=
  match instr.opcodeS with
  | .reg => b.reg instr.srcReg
  | .imm => some
      (if instr.opcodeClass = .JMP then imm64 instr.imm else .num (instr.imm % 2 ^ 32) 4 (-1))

def trackBranch (instr : Instr) (b : Block) : Except TrackError Block :=
  let code := instr.jmpCode
  let jmp32 : Bool := instr.opcodeClass = .JMP32
  let src := branchSource instr b
  let dst := b.reg instr.dstReg
  if (swapJmpCode code).isNone && code ≠ .JSET then throw (.noNegation code)
  else
    let rv := (dst.bind adjustRetIn).or (src.bind adjustRetIn)
    match rv, rv.bind fun rv => adjustOutcome code jmp32 rv dst src with
    | some rv, some (okTaken, failedTaken) =>
        if okTaken ≠ failedTaken then pure (adjustBranch b rv okTaken) else compareWith code dst src
    | _, _ => compareWith code dst src
where
  compareWith (code : JmpOp) (dst src : Option Expr) : Except TrackError Block :=
    let (code, dst, src) := swapOperands code dst src
    compareBranch b code dst src (instr.opcodeClass = .JMP32)

/-- The helpers whose result is only named. -/
def NAMED_HELPERS : List Int := [5, 7, 8, 14, 15, 42, 118, 125, 160, 208]

/-- The low 32 bits of a constant, read as a signed number. -/
def signed32 (n : Int) : Int := signedOf 32 (n % 2 ^ 32)

/-- The context pointer that a helper is given in `r1`. -/
def ctxArgument (idx : Nat) (imm : Int) (b : Block) : Except TrackError (PTR Expr) :=
  match b.reg 1 with
  | some (.ptr p) =>
      if p.ptrType = .CTX && p.off = 0 then pure p else throw (.helperArgument imm idx)
  | _ => throw (.helperArgument imm idx)

/-- The constant distance that an adjustment is given in `r2`. -/
def adjustArgument (idx : Nat) (imm : Int) (b : Block) : Except TrackError Int :=
  match b.reg 2 with
  | some (.num n _ _) => pure (signed32 n)
  | _ => throw (.helperArgument imm idx)

/-- The map pointer in a register, if it holds one. -/
def mapArgument (b : Block) (r : Reg) : Option (PTR Expr) :=
  match b.reg r with
  | some (.ptr p) => if p.ptrType = .MAP then some p else none
  | _ => none

def mapInfo (maps : List MapInfo) (mapId : Option Nat) : Except TrackError MapInfo :=
  match mapId.bind (maps[·]?) with
  | some info => pure info
  | none => throw (.noMapInfo mapId)

/-- A result about which nothing is known. -/
def Block.scalarResult (b : Block) (idx : Nat) : Block :=
  b.setReg 0 (some (.fresh idx (.scalar 8 idx)))

def mapLookup (maps : List MapInfo) (idx : Nat) (b : Block) : Except TrackError Block :=
  match mapArgument b 1, (b.reg 2).bind Expr.ptr? with
  | some map, some keyPtr => do
      let info ← mapInfo maps map.mapId
      let (key, b) ← load idx b keyPtr 0 info.keySize
      let result : PTR Expr :=
        { ptrType := .MAP_VALUE, baseId := some idx, mapId := map.mapId, mapKey := some key.val,
          mapKeyId := some idx, checkedNull := none }
      let b := b.setReg 0 (some (.fresh idx (.ptr result)))
      let b := b.emit (.mapLookup map.mapId (some key.val) (some idx))
      pure (b.setPtrFacts ⟨some idx, none⟩)
  | _, _ => throw (.helperArgument 1 idx)

def mapUpdate (maps : List MapInfo) (idx : Nat) (b : Block) : Except TrackError Block :=
  match mapArgument b 1, (b.reg 2).bind Expr.ptr?, (b.reg 3).bind Expr.ptr? with
  | some map, some keyPtr, some valuePtr => do
      let info ← mapInfo maps map.mapId
      let (key, b) ← load idx b keyPtr 0 info.keySize
      let (value, b) ← load idx b valuePtr 0 info.valueSize
      let flags := (b.reg 4).bind Expr.num?
      let b := b.emit (.mapUpdate map.mapId (some key.val) (some value.val) flags info.valueSize)
      pure (b.scalarResult idx)
  | _, _, _ => pure (b.scalarResult idx)

def mapDelete (maps : List MapInfo) (idx : Nat) (b : Block) : Except TrackError Block :=
  match mapArgument b 1, (b.reg 2).bind Expr.ptr? with
  | some map, some keyPtr => do
      let info ← mapInfo maps map.mapId
      let (key, b) ← load idx b keyPtr 0 info.keySize
      pure ((b.emit (.mapDelete map.mapId (some key.val))).scalarResult idx)
  | _, _ => pure (b.scalarResult idx)

/-- A helper whose result is a source of the block. -/
def namedResult (idx : Nat) (b : Block) (r : FuncRetval Expr) : Block :=
  (b.setReg 0 (some (.fresh idx (.funcRetval r)))).addSource (.funcRetval r)

/-- `bpf_redirect` and `bpf_redirect_map`, which fall back to their flags. -/
def redirectResult (idx : Nat) (imm : Int) (b : Block) : FuncRetval Expr :=
  let toMap : Bool := imm = 51
  let flags := ((b.reg (if toMap then 3 else 2)).bind Expr.num?)
  let mapId := if toMap then (mapArgument b 1).bind (·.mapId) else none
  let known := flags.isSome && toMap == mapId.isSome
  { idx := idx, func := imm.toNat, block := b.num, mapId := mapId
    mapKey := if toMap then b.reg 2 else none
    mapKeyId := some idx
    fallback :=
      if !known then 0
      else if toMap then flags.getD 0 % 4
      else if flags = some 0 then 4 else 0
    redirects := known }

/-- An adjustment of the packet: its result, and the action it performs. -/
def adjustCall (idx : Nat) (imm : Int) (b : Block) (action : Int → Action) :
    Except TrackError (PTR Expr × Block) := do
  let ctx ← ctxArgument idx imm b
  let delta ← adjustArgument idx imm b
  let b := b.setReg 0
    (some (.fresh idx (.funcRetval { idx := idx, func := imm.toNat, block := b.num })))
  pure (ctx, b.emit (action delta))

/-- `bpf_xdp_adjust_head`, after which the view of the packet is not known. -/
def adjustHeadCall (idx : Nat) (b : Block) : Except TrackError Block := do
  let (ctx, b) ← adjustCall idx 44 b .adjustHead
  pure ({ b with adjustPending := some (idx, ctx.baseId) }.setCtxView none)

def tailRegion (progs : List ProgRegion) (blocks : List Block) (idx : Nat) (b : Block) :
    Except TrackError ProgRegion :=
  if progs.isEmpty || (regionOf progs idx).any (!·.isMain) then throw (.tailCall idx)
  else
    match b.succT.bind (blocks[·]?) |>.bind (·.progEntry) with
    | some region => pure region
    | none => throw (.tailCall idx)

def tailCall (P : Program) (blocks : List Block) (idx : Nat) (b : Block) :
    Except TrackError Block := do
  let region ← tailRegion P.progs blocks idx b
  match b.regs 1, mapArgument b 2 with
  | some ⟨org, .ptr ctx⟩, some map =>
      if ctx.ptrType ≠ .CTX then throw (.tailCall idx)
      else do
        let info ← mapInfo P.maps map.mapId
        if info.type ≠ BPF_MAP_TYPE_PROG_ARRAY || region.mapId ≠ map.mapId then
          throw (.tailCall idx)
        else
          let index := b.reg 3
          let b := { b with
            tailCtx := some ⟨org, .ptr ctx⟩
            cond := some (.tailCallTaken map.mapId index region.slot idx) }
          pure ((b.emit (.tailCall map.mapId index)).scalarResult idx)
  | _, _ => throw (.tailCall idx)

/-- The effect of a helper, before the argument registers are cleared. -/
def helperCall (P : Program) (blocks : List Block) (idx : Nat) (imm : Int) (b : Block) :
    Except TrackError Block :=
  if imm = 1 then mapLookup P.maps idx b
  else if imm = 2 then mapUpdate P.maps idx b
  else if imm = 3 then mapDelete P.maps idx b
  else if NAMED_HELPERS.contains imm then
    pure (namedResult idx b
      { size := if imm = 7 then 4 else 8, idx := idx, func := imm.toNat, block := b.num })
  else if imm = 25 then pure ((b.emit .perfEventOutput).scalarResult idx)
  else if imm = 28 then
    pure (namedResult idx b { size := 4, idx := idx, func := imm.toNat, block := b.num })
  else if imm = 44 then adjustHeadCall idx b
  else if imm = 23 || imm = 51 then pure (namedResult idx b (redirectResult idx imm b))
  else if imm = 12 then tailCall P blocks idx b
  else if imm = 54 then (adjustCall idx imm b .adjustMeta).map (·.2)
  else if imm = 65 then (adjustCall idx imm b .adjustTail).map (·.2)
  else if imm = 188 then do
    let _ ← ctxArgument idx imm b
    pure ((b.setReg 0 (some (.fresh idx (.pktLen 8 b.pktBaseId)))).emit .xdpBuffLen)
  else throw (.unknownHelper imm)

def trackCall (P : Program) (blocks : List Block) (idx : Nat) (instr : Instr) (b : Block) :
    Except TrackError Block :=
  if instr.srcReg ≠ 0 then pure (b.scalarResult idx)
  else do
    let b ← helperCall P blocks idx instr.imm b
    pure ([1, 2, 3, 4, 5].foldl (fun b r => b.setReg r none) b)

/-- Tracks one instruction. -/
def trackInstr (P : Program) (blocks : List Block) (b : Block) (idx : Nat) :
    Except TrackError Block :=
  let b := { b with idx := idx }
  match P.instrs[idx]? with
  | none => throw (.noInstruction idx)
  | some instr =>
      if instr.isAlu then trackAlu idx instr b
      else if instr.isLoad then trackLoad P.rodata idx instr b
      else if instr.isStore then trackStore idx instr b
      else if instr.isCall then trackCall P blocks idx instr b
      else if instr.isBranch then trackBranch instr b
      else pure b

/-- The entry state of a block. -/
def enter (blocks : List Block) (b : Block) : Except TrackError Block :=
  if b.num = 0 then pure b.initState
  else if b.progEntry.isSome then b.initTailEntry blocks
  else b.mergePredecessors blocks

/-- The blocks, and the last pointer id that was given out. -/
structure Tracker where
  blocks : List Block
  idBox : Int

/-- A block before it is tracked. -/
def Block.clear (b : Block) (idBox : Int) : Block :=
  { b with
    actions := [], sources := [], cond := none, condF := none, condT := none
    ptrFacts := fun _ => none, pktPtrFacts := fun _ => none, adjustPending := none
    idBox := idBox }

def trackBlock (P : Program) (t : Tracker) (no : Nat) : Except TrackError Tracker :=
  match t.blocks[no]? with
  | none => throw .noNextBlock
  | some b => do
      let b ← enter t.blocks (b.clear t.idBox)
      let b ← (List.range' b.start (b.end + 1 - b.start)).foldlM (trackInstr P t.blocks) b
      pure { blocks := t.blocks.set no b, idBox := b.idBox }

/-- The next block all of whose predecessors have been tracked. -/
def nextBlockNo (blocks : List Block) (untraced : List Nat) : Option Nat :=
  untraced.find? fun i =>
    ((blocks[i]?).map (·.preds)).all fun preds => preds.all (· ∉ untraced)

/-- Tracks the remaining blocks, one for each unit of fuel. -/
def trackFrom (P : Program) : Nat → Tracker → List Nat → Except TrackError Tracker
  | _, t, [] => pure t
  | 0, _, _ => throw .noNextBlock
  | fuel + 1, t, untraced =>
      match nextBlockNo t.blocks untraced with
      | none => throw .noNextBlock
      | some no => do
          let t ← trackBlock P t no
          trackFrom P fuel t (untraced.erase no)

def track (P : Program) (blocks : List Block) : Except TrackError Tracker := do
  let t ← trackBlock P { blocks := blocks, idBox := P.instrs.length } 0
  trackFrom P blocks.length t ((List.range blocks.length).erase 0)

end Hornet
