import Hornet.Lib.Dict
import Hornet.Lib.Fold
import Hornet.Track.Tracker

/-!
Decoding of an object file. The sections, symbols and relocations are as the ELF
reader presents them, and the BTF types as they stand in the type table; what is
modelled is what the loader makes of them: the instructions of the section of
the entry function, the maps, the `.bss` symbols and the relocated operands.
-/

namespace Hornet

open Lib (Dict)

inductive LoadError where
  | noSymtab
  | noSymbol (name : String)
  | noSection
  | textSize
  | register (idx : Nat)
  | noBtf
  | btfType (id : Nat)
  | symbolIndex (index : Nat)
  | mapStride
  | relocatedNop (idx : Nat)
  | rodataSymbol
  deriving DecidableEq, Repr

inductive SymType where
  | STT_OBJECT | STT_SECTION | other
  deriving DecidableEq, Repr

/-- A symbol. Special section indices are presented as text and are `none` here. -/
structure ElfSymbol where
  name : String
  stValue : Nat
  stSize : Nat
  stShndx : Option Nat
  stType : SymType

structure ElfReloc where
  rOffset : Nat
  rInfoSym : Nat

/-- A section with its data and, if it holds relocations, these. -/
structure ElfSection where
  name : String
  data : List UInt8 := []
  relocs : List ElfReloc := []

structure BtfMember where
  name : String
  type : Nat
  offset : Nat

structure BtfVarSecinfo where
  type : Nat
  offset : Nat
  size : Nat

/-- What follows the header of a BTF type. -/
inductive BtfExtra where
  | int (encoding : Nat)
  | array (elemType indexType nelems : Nat)
  | members (ms : List BtfMember)
  | linkage (n : Nat)
  | secinfos (entries : List BtfVarSecinfo)
  | none

structure BtfType where
  name : String
  kind : Nat
  vlen : Nat
  kindFlag : Nat
  sizeOrType : Nat
  extra : BtfExtra

/-- An object file, with the types of its `.BTF` section if it has one. -/
structure Elf where
  sections : List ElfSection
  symtab : Option (List ElfSymbol)
  btf : Option (List BtfType)

namespace Elf

/-- The index of the last section of that name. -/
def sectionIndex (elf : Elf) (name : String) : Option Nat :=
  elf.sections.zipIdx.reverse.findSome? fun x => if x.1.name = name then some x.2 else none

def getSectionByName (elf : Elf) (name : String) : Option ElfSection :=
  (elf.sectionIndex name).bind (elf.sections[·]?)

end Elf

/-! ## Instructions -/

def opClassOf (opcode : Nat) : OpClass :=
  match opcode % 8 with
  | 0 => .LD | 1 => .LDX | 2 => .ST | 3 => .STX
  | 4 => .ALU | 5 => .JMP | 6 => .JMP32 | _ => .ALU64

def aluOpOf (opcode : Nat) : AluOp :=
  match opcode / 16 with
  | 0x0 => .ADD | 0x1 => .SUB | 0x2 => .MUL | 0x3 => .DIV
  | 0x4 => .OR | 0x5 => .AND | 0x6 => .LSH | 0x7 => .RSH
  | 0x8 => .NEG | 0x9 => .MOD | 0xa => .XOR | 0xb => .MOV
  | 0xc => .ARSH | 0xd => .END | 0xe => .code_e | _ => .code_f

def jmpOpOf (opcode : Nat) : JmpOp :=
  match opcode / 16 with
  | 0x0 => .JA | 0x1 => .JEQ | 0x2 => .JGT | 0x3 => .JGE
  | 0x4 => .JSET | 0x5 => .JNE | 0x6 => .JSGT | 0x7 => .JSGE
  | 0x8 => .CALL | 0x9 => .EXIT | 0xa => .JLT | 0xb => .JLE
  | 0xc => .JSLT | 0xd => .JSLE | 0xe => .code_e | _ => .code_f

def opSizeOf (opcode : Nat) : OpSize :=
  match opcode / 8 % 4 with
  | 0 => .W | 1 => .H | 2 => .B | _ => .DW

def opModeOf (opcode : Nat) : OpMode :=
  match opcode / 32 with
  | 0 => .IMM | 1 => .ABS | 2 => .IND | 3 => .MEM
  | 4 => .MEMSX | 5 => .mode_5 | 6 => .ATOMIC | _ => .mode_7

/-- A register nibble. The tracker has no register past `r10`. -/
def regOf (idx nibble : Nat) : Except LoadError Reg :=
  if h : nibble < 11 then pure ⟨nibble, h⟩ else throw (.register idx)

/-- The entry of the second slot of a wide instruction. -/
def Instr.nop : Instr :=
  { opcodeClass := .nop, opcodeS := .imm, aluCode := .ADD, jmpCode := .JA, opcodeSz := .W
    opcodeMode := .IMM, srcReg := 0, dstReg := 0, offset := 0, imm := 0, wideInstr := false
    nextImm := 0, reloc := none }

/-- An instruction from its first eight bytes and, if it is wide, what follows them. -/
def parseBytecode (idx : Nat) (opcode regs : UInt8) (offset imm next : List UInt8) :
    Except LoadError Instr := do
  let op := opcode.toNat
  let srcReg ← regOf idx (regs.toNat / 16)
  let dstReg ← regOf idx (regs.toNat % 16)
  pure
    { opcodeClass := opClassOf op
      opcodeS := if op / 8 % 2 = 1 then .reg else .imm
      aluCode := aluOpOf op
      jmpCode := jmpOpOf op
      opcodeSz := opSizeOf op
      opcodeMode := opModeOf op
      srcReg := srcReg
      dstReg := dstReg
      offset := signedOf 16 (bytesNat offset)
      imm := signedOf 32 (bytesNat imm)
      wideInstr := op = 0x18
      nextImm := if op = 0x18 then bytesNat next else 0
      reloc := none }

/-- The instructions of a section, from the one at `idx` on. -/
def decodeInstrs (idx : Nat) : List UInt8 → Except LoadError (List Instr)
  | op :: regs :: o0 :: o1 :: i0 :: i1 :: i2 :: i3 :: rest =>
      if op = 0x18 then
        match rest with
        | n0 :: n1 :: n2 :: n3 :: n4 :: n5 :: n6 :: n7 :: rest => do
            let ins ← parseBytecode idx op regs [o0, o1] [i0, i1, i2, i3]
              [n0, n1, n2, n3, n4, n5, n6, n7]
            let tail ← decodeInstrs (idx + 2) rest
            pure (ins :: .nop :: tail)
        | _ => do
            let ins ← parseBytecode idx op regs [o0, o1] [i0, i1, i2, i3] []
            pure [ins, .nop]
      else do
        let ins ← parseBytecode idx op regs [o0, o1] [i0, i1, i2, i3] []
        let tail ← decodeInstrs (idx + 1) rest
        pure (ins :: tail)
  | _ => pure []

/-- The section of the entry function, its instructions and the index of the entry. -/
def parseInstrs (elf : Elf) (symtab : List ElfSymbol) (mainFunc : String) :
    Except LoadError (List Instr × ElfSection × Nat) := do
  match symtab.find? (·.name = mainFunc) with
  | none => throw (.noSymbol mainFunc)
  | some sym =>
      match sym.stShndx.bind (elf.sections[·]?) with
      | none => throw .noSection
      | some mainText =>
          if mainText.data.length % 8 ≠ 0 then throw .textSize
          else do
            let instrs ← decodeInstrs 0 mainText.data
            pure (instrs, mainText, sym.stValue / 8)

/-! ## Maps -/

/-- A map as its object declares it. -/
structure MapDef where
  id : Nat
  name : Option String
  type : Nat := 0
  keySize : Nat := 0
  valueSize : Nat := 0
  maxEntries : Nat := 0
  flags : Nat := 0
  deriving DecidableEq, Repr

inductive MapField where
  | type | keySize | valueSize | maxEntries | flags

def MapDef.setField (info : MapDef) (v : Nat) : MapField → MapDef
  | .type => { info with type := v }
  | .keySize => { info with keySize := v }
  | .valueSize => { info with valueSize := v }
  | .maxEntries => { info with maxEntries := v }
  | .flags => { info with flags := v }

/-- The members whose number is the length of an array. -/
def uintMember (name : String) : Option MapField :=
  if name = "type" then some .type
  else if name = "max_entries" then some .maxEntries
  else if name = "map_flags" then some .flags
  else if name = "key_size" then some .keySize
  else if name = "value_size" then some .valueSize
  else none

/-- The members whose number is the size of a type. -/
def typeMember (name : String) : Option MapField :=
  if name = "key" then some .keySize else if name = "value" then some .valueSize else none

/-- The type of an id. The id zero stands for `void`, which has no entry. -/
def btfTypeAt (types : List BtfType) (id : Nat) : Except LoadError BtfType :=
  match id with
  | 0 => throw (.btfType 0)
  | n + 1 =>
      match types[n]? with
      | some t => pure t
      | none => throw (.btfType id)

/-- The size of a type. A chain of types without a cycle is not longer than the table. -/
def btfTypeSize (types : List BtfType) : Nat → Nat → Except LoadError Nat
  | 0, id => throw (.btfType id)
  | fuel + 1, id =>
      if id = 0 then pure 0
      else do
        let t ← btfTypeAt types id
        if [1, 4, 5, 6, 16, 19].contains t.kind then pure t.sizeOrType
        else if t.kind = 2 then pure 8
        else if t.kind = 3 then
          match t.extra with
          | .array elem _ nelems => do
              let size ← btfTypeSize types fuel elem
              pure (size * nelems)
          | _ => throw (.btfType id)
        else if [8, 9, 10, 11, 18].contains t.kind then btfTypeSize types fuel t.sizeOrType
        else pure 0

def parseMember (types : List BtfType) (info : MapDef) (m : BtfMember) :
    Except LoadError MapDef := do
  let mtype ← btfTypeAt types m.type
  if mtype.kind ≠ 2 then pure info
  else
    match uintMember m.name with
    | some field => do
        let pointed ← btfTypeAt types mtype.sizeOrType
        match pointed.kind, pointed.extra with
        | 3, .array _ _ nelems => pure (info.setField nelems field)
        | _, _ => pure info
    | none =>
        match typeMember m.name with
        | some field => do
            let size ← btfTypeSize types (types.length + 1) mtype.sizeOrType
            pure (info.setField size field)
        | none => pure info

/-- A program array has keys and values of four bytes unless it declares others. -/
def progArraySizes (info : MapDef) : MapDef :=
  if info.type = BPF_MAP_TYPE_PROG_ARRAY then
    { info with
      keySize := if info.keySize = 0 then 4 else info.keySize
      valueSize := if info.valueSize = 0 then 4 else info.valueSize }
  else info

/-- The map of one entry of the section, whose id is the position of the entry.
A variable that is not directly a struct is skipped. -/
def parseSecinfo (types : List BtfType) (mapId : Nat) (secInfo : BtfVarSecinfo) :
    Except LoadError (Option MapDef) := do
  let varType ← btfTypeAt types secInfo.type
  if varType.kind ≠ 14 then pure none
  else do
    let structType ← btfTypeAt types varType.sizeOrType
    if structType.kind ≠ 4 then pure none
    else
      match structType.extra with
      | .members ms => do
          let info ← ms.foldlM (parseMember types) { id := mapId, name := some varType.name }
          pure (some (progArraySizes info))
      | _ => throw (.btfType varType.sizeOrType)

/-- The maps of the entries from position `mapId` on. -/
def parseSecinfos (types : List BtfType) (mapId : Nat) :
    List BtfVarSecinfo → Except LoadError (List MapDef)
  | [] => pure []
  | secInfo :: rest => do
      let info ← parseSecinfo types mapId secInfo
      let tail ← parseSecinfos types (mapId + 1) rest
      pure (info.toList ++ tail)

def parseMapsBtf (types : List BtfType) : Except LoadError (List MapDef) :=
  match types.find? fun t => t.kind = 15 && t.name = ".maps" with
  | none => pure []
  | some datasec =>
      match datasec.extra with
      | .secinfos entries => parseSecinfos types 0 entries
      | _ => throw (.btfType 0)

def MAP_DEF_SIZE : Nat := 20

/-- The maps of a section in the traditional format. -/
def parseMapsTraditional (elf : Elf) (symtab : List ElfSymbol) (secName : String)
    (data : List UInt8) : List MapDef :=
  let mapsIdx := elf.sectionIndex secName
  let names := Dict.ofList ((symtab.filter (·.stShndx = mapsIdx)).map fun s =>
    (s.stValue / MAP_DEF_SIZE, s.name))
  (List.range (data.length / MAP_DEF_SIZE)).map fun mi =>
    let value (k : Nat) := bytesNat ((data.drop (mi * MAP_DEF_SIZE + 4 * k)).take 4)
    { id := mi, name := names.get? mi, type := value 0, keySize := value 1, valueSize := value 2
      maxEntries := value 3, flags := value 4 }

/-- The section that the maps are declared in. -/
def Elf.mapsSection (elf : Elf) : String :=
  if (elf.getSectionByName ".maps").isSome then ".maps" else "maps"

def Elf.mapsData (elf : Elf) : List UInt8 :=
  ((elf.getSectionByName elf.mapsSection).map (·.data)).getD []

def parseMaps (elf : Elf) (symtab : List ElfSymbol) : Except LoadError (List MapDef) :=
  if elf.mapsData = [] then pure []
  else if elf.mapsData.all (· = 0) then
    match elf.btf with
    | some types => parseMapsBtf types
    | none => throw .noBtf
  else pure (parseMapsTraditional elf symtab elf.mapsSection elf.mapsData)

/-! ## Globals -/

/-- A global of `.bss` or `.rodata`. -/
structure GlobalSym where
  size : Nat
  offset : Nat
  deriving DecidableEq, Repr

/-- The objects of a section, by name. -/
def objectSymbols (elf : Elf) (symtab : List ElfSymbol) (secName : String) :
    Dict String GlobalSym :=
  match elf.sectionIndex secName with
  | none => Dict.empty
  | some idx =>
      Dict.ofList ((symtab.filter fun s => s.stShndx = some idx && s.stType = .STT_OBJECT).map
        fun s => (s.name, ⟨s.stSize, s.stValue⟩))

/-- The bytes of `.rodata`. An object that is called `data` takes their place in
the table, which the linker cannot use then. -/
def parseRodata (elf : Elf) (symtab : List ElfSymbol) : Except LoadError (List UInt8) :=
  if ((objectSymbols elf symtab ".rodata").get? "data").isSome then throw .rodataSymbol
  else pure (((elf.getSectionByName ".rodata").map (·.data)).getD [])

def parseBss (elf : Elf) (symtab : List ElfSymbol) : Dict String GlobalSym :=
  objectSymbols elf symtab ".bss"

/-! ## Relocations -/

/-- The first object that an address lies in, and where it starts. -/
def objectAt (objects : Dict String GlobalSym) (addr : Int) : Option String × Int :=
  match objects.entries.find? fun x =>
      x.2.offset ≤ addr && addr < x.2.offset + max x.2.size 1 with
  | some x => (some x.1, x.2.offset)
  | none => (none, addr)

/-- The position of the first map of that name. -/
def mapNamed (maps : List MapDef) (name : String) : Option Nat :=
  maps.findIdx? fun m => decide (m.name = some name)

/-- The index that a relocation against a map symbol is given. -/
def mapTag (elf : Elf) (maps : List MapDef) (symbol : ElfSymbol) : Except LoadError Nat :=
  match mapNamed maps symbol.name with
  | some i => pure i
  | none =>
      let stride :=
        match elf.getSectionByName ".maps" with
        | some sec => if maps = [] then MAP_DEF_SIZE else sec.data.length / maps.length
        | none => MAP_DEF_SIZE
      if stride = 0 then throw .mapStride else pure (symbol.stValue / stride)

/-- The address of a relocated global: that of its symbol and the operand's own. -/
def globalAddr (instrs : List Instr) (line : Nat) (symbol : ElfSymbol) :
    Except LoadError Int :=
  match instrs[line]? with
  | some ins =>
      if ins.opcodeClass = .nop then throw (.relocatedNop line) else pure (symbol.stValue + ins.imm)
  | none => throw (.relocatedNop line)

/-- The kind of operand that a relocation provides. -/
inductive RelocKind where
  | map | bss | rodata
  deriving DecidableEq, Repr

def relocKind (symbol : ElfSymbol) (secName : String) : Option RelocKind :=
  if symbol.stType = .STT_OBJECT && (secName = "maps" || secName = ".maps") then some .map
  else if secName = ".bss" && symbol.stType ≠ .other then some .bss
  else if secName = ".rodata" && symbol.stType ≠ .other then some .rodata
  else none

/-- The symbol of a relocation and what it provides, unless the relocation is skipped. -/
def relocTarget (elf : Elf) (symtab : List ElfSymbol) (mainDataSize : Nat) (reloc : ElfReloc) :
    Except LoadError (Option (ElfSymbol × RelocKind)) :=
  if mainDataSize ≤ reloc.rOffset then pure none
  else
    match symtab[reloc.rInfoSym]? with
    | none => throw (.symbolIndex reloc.rInfoSym)
    | some symbol =>
        match symbol.stShndx with
        | none => pure none
        | some shndx =>
            if shndx = 0 || 100 < shndx then pure none
            else
              match elf.sections[shndx]? with
              | none => throw .noSection
              | some sec => pure ((relocKind symbol sec.name).map fun kind => (symbol, kind))

/-- The operand that a symbol gives to the instruction at `line`. -/
def relocOf (elf : Elf) (instrs : List Instr) (bss : Dict String GlobalSym) (maps : List MapDef)
    (symbol : ElfSymbol) (line : Nat) : RelocKind → Except LoadError Reloc
  | .map => (mapTag elf maps symbol).map .map
  | .bss => (globalAddr instrs line symbol).map fun addr =>
      let (key, base) := objectAt bss addr
      .bss key (addr - base)
  | .rodata => (globalAddr instrs line symbol).map .rodata

def applyReloc (elf : Elf) (symtab : List ElfSymbol) (bss : Dict String GlobalSym)
    (mainDataSize : Nat) (maps : List MapDef) (instrs : List Instr) (reloc : ElfReloc) :
    Except LoadError (List Instr) := do
  match ← relocTarget elf symtab mainDataSize reloc with
  | none => pure instrs
  | some (symbol, kind) =>
      let line := reloc.rOffset / 8
      let r ← relocOf elf instrs bss maps symbol line kind
      pure (instrs.modify line ({ · with reloc := some r }))

def applyRelocations (elf : Elf) (symtab : List ElfSymbol) (instrs : List Instr)
    (bss : Dict String GlobalSym) (mainText : ElfSection) (maps : List MapDef) :
    Except LoadError (List Instr) :=
  match elf.getSectionByName (".rel" ++ mainText.name) with
  | none => pure instrs
  | some sec =>
      sec.relocs.foldlM (applyReloc elf symtab bss mainText.data.length maps) instrs

/-- What is decoded from one object. -/
structure Load where
  instrs : List Instr
  maps : List MapDef
  rodata : List UInt8
  bss : Dict String GlobalSym
  entry : String
  entryIdx : Nat
  path : String
  sectionName : String

def decodeBinary (filePath mainFunc : String) (elf : Elf) : Except LoadError Load := do
  match elf.symtab with
  | none => throw .noSymtab
  | some symtab =>
      let (instrs, mainText, entryIdx) ← parseInstrs elf symtab mainFunc
      let maps ← parseMaps elf symtab
      let rodata ← parseRodata elf symtab
      let bss := parseBss elf symtab
      let instrs ← applyRelocations elf symtab instrs bss mainText maps
      pure
        { instrs := instrs, maps := maps, rodata := rodata, bss := bss, entry := mainFunc
          entryIdx := entryIdx, path := filePath, sectionName := mainText.name }

/-- An object file and the function that is analysed in it. -/
structure ObjectFile where
  path : String
  entry : String
  elf : Elf

def decodeAll (objs : List ObjectFile) : Except LoadError (List Load) :=
  objs.mapM fun o => decodeBinary o.path o.entry o.elf

theorem getElem?_decodeAll {objs : List ObjectFile} {loads : List Load}
    (h : decodeAll objs = .ok loads) {i : Nat} {load : Load} (hi : loads[i]? = some load) :
    ∃ o, objs[i]? = some o ∧ decodeBinary o.path o.entry o.elf = .ok load := by
  induction objs generalizing loads i with
  | nil =>
      cases h
      simp at hi
  | cons o objs ih =>
      simp only [decodeAll, List.mapM_cons, Lib.bind_eq_ok] at h
      obtain ⟨first, hfirst, rest, hrest, hout⟩ := h
      cases hout
      cases i with
      | zero =>
          cases hi
          exact ⟨o, rfl, hfirst⟩
      | succ i => exact ih hrest hi

end Hornet
