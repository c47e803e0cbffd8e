import Hornet.Bpf.Instr

/-!
The arithmetic and the jumps of the BPF instruction set (RFC 9669, sections 4.1
to 4.3) on 64-bit registers. This is the reference that the tracker and the
lowering are compared with; nothing here is taken from the verifier.
-/

namespace Hornet.Isa

/-- A two-operand instruction at its operation width. Division by zero gives
zero, the remainder by zero gives the dividend, and a shift amount is taken
modulo the width. -/
def binary {w : Nat} (op : AluOp) (signed : Bool) (d s : BitVec w) : BitVec w :=
  match op with
  | .ADD => d + s
  | .SUB => d - s
  | .MUL => d * s
  | .DIV => if s = 0#w then 0#w else if signed then d.sdiv s else d / s
  | .OR => d ||| s
  | .AND => d &&& s
  | .LSH => d <<< (s.toNat % w)
  | .RSH => d >>> (s.toNat % w)
  | .MOD => if s = 0#w then d else if signed then d.srem s else d % s
  | .XOR => d ^^^ s
  | .ARSH => d.sshiftRight (s.toNat % w)
  | _ => d

/-- Reverses the order of the `n` low bytes; the higher bytes are dropped. -/
def byteSwap (n : Nat) (d : BitVec 64) : BitVec 64 :=
  match n with
  | 0 => 0
  | n + 1 => (byteSwap n (d >>> 8)) ||| ((d &&& 0xff#64) <<< (8 * n))

/-- The low `bits` bits of a register. -/
def low (bits : Nat) (d : BitVec 64) : BitVec 64 := (d.setWidth bits).setWidth 64

/-- The source operand: the immediate or the source register. -/
def source (i : Instr) (src : BitVec 64) : BitVec 64 :=
  match i.opcodeS with
  | .imm => BitVec.ofInt 64 i.imm
  | .reg => src

/-- The value an ALU instruction gives its destination register. -/
def alu (i : Instr) (dst src : BitVec 64) : BitVec 64 :=
  let wide := i.opcodeClass = .ALU64
  let s := source i src
  match i.aluCode with
  | .MOV =>
      if i.offset = 0 then if wide then s else low 32 s
      else
        let low := src.setWidth i.offset.toNat
        if wide then low.signExtend 64 else (low.signExtend 32).setWidth 64
  | .NEG => if wide then -dst else (-(dst.setWidth 32)).setWidth 64
  | .END =>
      let bytes := i.imm.toNat / 8
      if wide || i.opcodeS = .reg then byteSwap bytes dst else low (8 * bytes) dst
  | op =>
      if wide then binary op (i.offset = 1) dst s
      else (binary op (i.offset = 1) (dst.setWidth 32) (s.setWidth 32)).setWidth 64

/-- The ALU instructions that the instruction set defines. The immediate is a signed
field of 32 bits. -/
def ValidAlu (i : Instr) : Prop :=
  i.isAlu ∧ i.dstReg < 10 ∧ (-2 ^ 31 ≤ i.imm ∧ i.imm < 2 ^ 31) ∧
  match i.aluCode with
  | .MOV => i.offset = 0 ∨
      (i.opcodeS = .reg ∧ (i.offset = 8 ∨ i.offset = 16 ∨
        (i.offset = 32 ∧ i.opcodeClass = .ALU64)))
  | .DIV | .MOD => i.offset = 0 ∨ i.offset = 1
  | .NEG => i.offset = 0 ∧ i.opcodeS = .imm
  | .END => i.offset = 0 ∧ (i.imm = 16 ∨ i.imm = 32 ∨ i.imm = 64) ∧
      (i.opcodeClass = .ALU64 → i.opcodeS = .imm)
  | .code_e | .code_f => False
  | _ => i.offset = 0

instance (i : Instr) : Decidable (ValidAlu i) := by
  unfold ValidAlu
  split <;> infer_instance

/-- The codes of the conditional jumps. -/
def isConditional : JmpOp → Bool
  | .JA | .CALL | .EXIT | .code_e | .code_f => false
  | _ => true

/-- Whether two operands compare as a conditional jump asks. -/
def compare {w : Nat} (code : JmpOp) (d s : BitVec w) : Bool :=
  match code with
  | .JEQ => d == s
  | .JNE => d != s
  | .JGT => s.ult d
  | .JGE => s.ule d
  | .JLT => d.ult s
  | .JLE => d.ule s
  | .JSGT => s.slt d
  | .JSGE => s.sle d
  | .JSLT => d.slt s
  | .JSLE => d.sle s
  | .JSET => d &&& s != 0#w
  | _ => false

/-- Whether a conditional jump is taken; one of the class JMP32 looks at the low halves. -/
def taken (jmp32 : Bool) (code : JmpOp) (d s : BitVec 64) : Bool :=
  if jmp32 then compare code (d.setWidth 32) (s.setWidth 32) else compare code d s

/-- Whether a tail call with this index enters the program in a slot of an array of
`maxEntries` slots. The kernel reads the index as a 32-bit number. -/
def tailCallEnters (maxEntries slot : Nat) (index : BitVec 64) : Bool :=
  decide ((index.setWidth 32).toNat = slot) && decide (slot < maxEntries)

end Hornet.Isa
