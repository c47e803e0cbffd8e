import Mathlib.Data.Int.Bitwise
import Mathlib.Data.BitVec

/-!
Opcode fields and constant folding. `arith` is the tracker's evaluation of an
instruction on two constants; like the source it works on unbounded integers
and masks only where the source masks.
-/

namespace Hornet

/-- The class of an instruction. The second slot of a wide instruction is an
entry of its own that has none. -/
inductive OpClass where
  | LD | LDX | ST | STX | ALU | JMP | JMP32 | ALU64
  | nop
  deriving DecidableEq, Repr

/-- The source operand bit of an instruction: `S_IMM` or `S_REG`. -/
inductive OpSrc where
  | imm | reg
  deriving DecidableEq, Repr

/-- The code nibble of an ALU instruction. The last two codes are unassigned. -/
inductive AluOp where
  | ADD | SUB | MUL | DIV | OR | AND | LSH | RSH | NEG | MOD | XOR | MOV | ARSH | END
  | code_e | code_f
  deriving DecidableEq, Repr

/-- The code nibble of a jump instruction. The last two codes are unassigned. -/
inductive JmpOp where
  | JA | JEQ | JGT | JGE | JSET | JNE | JSGT | JSGE | CALL | EXIT | JLT | JLE | JSLT | JSLE
  | code_e | code_f
  deriving DecidableEq, Repr

/-- The mode bits of a load or store. `0x5` and `0x7` are unassigned. -/
inductive OpMode where
  | IMM | ABS | IND | MEM | MEMSX | mode_5 | ATOMIC | mode_7
  deriving DecidableEq, Repr

/-- The size bits of a load or store; `szMap` is the number of bytes. -/
inductive OpSize where
  | W | H | B | DW
  deriving DecidableEq, Repr

def szMap : OpSize → Nat
  | .W => 4
  | .H => 2
  | .B => 1
  | .DW => 8

/-- The instruction set has the registers `r0` to `r10`. -/
abbrev Reg := Fin 11

instance reg_neZero : NeZero 11 :=
  ⟨by decide⟩

def HELPER_TAIL_CALL : Int := 12

/-- The code of the opposite condition, or none for `JSET`, which has no
opposite. -/
def swapJmpCode : JmpOp → Option JmpOp
  | .JEQ => some .JNE
  | .JNE => some .JEQ
  | .JGT => some .JLE
  | .JLE => some .JGT
  | .JGE => some .JLT
  | .JLT => some .JGE
  | .JSGT => some .JSLE
  | .JSLE => some .JSGT
  | .JSGE => some .JSLT
  | .JSLT => some .JSGE
  | _ => none

/-- `u` read as a signed number of `bits` bits. -/
def signedOf (bits : Nat) (u : Int) : Int :=
  if 2 ^ (bits - 1) ≤ u then u - 2 ^ bits else u

/-- The operations that `arith` performs on unmasked integers. -/
def arithUnmasked (op : AluOp) (dst src : Int) : Int :=
  match op with
  | .ADD => dst + src
  | .SUB => dst - src
  | .MUL => dst * src
  | .OR => Int.lor dst src
  | .AND => Int.land dst src
  | .NEG => -dst
  | .XOR => Int.xor dst src
  | _ => 0

/-- Constant folding. `dst & mask` of the source is `dst % 2 ^ bits`, and
`src & (bits - 1)` is `src % bits` because `bits` is a power of two. -/
def arith (op : AluOp) (dst src : Int) (bits : Nat) (signed : Bool) : Int :=
  let a := dst % 2 ^ bits
  let b := src % 2 ^ bits
  let amt := (src % bits).toNat
  match op with
  | .LSH => (a * 2 ^ amt) % 2 ^ bits
  | .RSH => a / 2 ^ amt
  | .ARSH => (signedOf bits a / 2 ^ amt) % 2 ^ bits
  | .DIV =>
      if signed then
        let sa := signedOf bits a
        let sb := signedOf bits b
        if sb = 0 then 0
        else
          let mag : Int := sa.natAbs / sb.natAbs
          (if decide (sa < 0) != decide (sb < 0) then -mag else mag) % 2 ^ bits
      else if b = 0 then 0 else a / b
  | .MOD =>
      if signed then
        let sa := signedOf bits a
        let sb := signedOf bits b
        if sb = 0 then a
        else
          let mag : Int := sa.natAbs % sb.natAbs
          (if sa < 0 then -mag else mag) % 2 ^ bits
      else if b = 0 then a else a % b
  | op =>
      if bits = 32 then arithUnmasked op a b % 2 ^ bits else arithUnmasked op dst src

/-- The kind of object a pointer points into. -/
inductive PtrType where
  | CTX | PKT | PKT_END | PKT_META | STK | MAP | MAP_VALUE | BSS | RODATA | DATA
  deriving DecidableEq, Repr

def BPF_MAP_TYPE_PROG_ARRAY : Nat := 3

end Hornet
