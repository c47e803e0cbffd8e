import Hornet.Bpf.Constants

/-!
Decoded instructions. The loader fills the relocation fields; `nextImm` holds
the second slot of a wide instruction, which is also an entry of its own.
-/

namespace Hornet

/-- What a relocated `lddw` refers to: a map by its index, a `.bss` symbol by
its key, if its address lies in one, or the `.rodata` section. -/
inductive Reloc where
  | map (tag : Nat)
  | bss (tag : Option String) (offset : Int)
  | rodata (offset : Int)
  deriving DecidableEq, Repr

structure Instr where
  opcodeClass : OpClass
  opcodeS : OpSrc
  aluCode : AluOp
  jmpCode : JmpOp
  opcodeSz : OpSize
  opcodeMode : OpMode
  srcReg : Reg
  dstReg : Reg
  offset : Int
  imm : Int
  wideInstr : Bool
  nextImm : Nat
  reloc : Option Reloc
  deriving DecidableEq, Repr

namespace Instr

def isLoad (i : Instr) : Bool := i.opcodeClass = .LD || i.opcodeClass = .LDX
def isStore (i : Instr) : Bool := i.opcodeClass = .ST || i.opcodeClass = .STX
def isAlu (i : Instr) : Bool := i.opcodeClass = .ALU || i.opcodeClass = .ALU64
def isJump (i : Instr) : Bool := i.opcodeClass = .JMP || i.opcodeClass = .JMP32
def isCall (i : Instr) : Bool := i.isJump && i.jmpCode = .CALL

def isTailCall (i : Instr) : Bool :=
  i.isCall && i.srcReg = 0 && i.imm = HELPER_TAIL_CALL

def isBranch (i : Instr) : Bool :=
  i.isJump && !(i.jmpCode = .JA || i.jmpCode = .CALL || i.jmpCode = .EXIT)

def isExit (i : Instr) : Bool := i.isJump && i.jmpCode = .EXIT

def jumpOffset (i : Instr) : Int :=
  if i.opcodeClass = .JMP32 && i.jmpCode = .JA then i.imm else i.offset

end Instr

end Hornet
