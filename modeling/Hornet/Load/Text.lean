import Hornet.Load.Btf
import Hornet.Load.Maps
import Hornet.Track.Built

/-!
The text section and the instructions decoded from it. An instruction is laid out in
eight bytes, a wide one in sixteen; entry `k` of the decoded list is the slot at byte
`8 * k`. Writing the instructions out again gives back the section.
-/

namespace Hornet

/-! ## The layout of an instruction -/

def OpClass.code : OpClass → Nat
  | .LD => 0 | .LDX => 1 | .ST => 2 | .STX => 3
  | .ALU => 4 | .JMP => 5 | .JMP32 => 6 | .ALU64 => 7
  | .nop => 0

def AluOp.code : AluOp → Nat
  | .ADD => 0x0 | .SUB => 0x1 | .MUL => 0x2 | .DIV => 0x3
  | .OR => 0x4 | .AND => 0x5 | .LSH => 0x6 | .RSH => 0x7
  | .NEG => 0x8 | .MOD => 0x9 | .XOR => 0xa | .MOV => 0xb
  | .ARSH => 0xc | .END => 0xd | .code_e => 0xe | .code_f => 0xf

def JmpOp.code : JmpOp → Nat
  | .JA => 0x0 | .JEQ => 0x1 | .JGT => 0x2 | .JGE => 0x3
  | .JSET => 0x4 | .JNE => 0x5 | .JSGT => 0x6 | .JSGE => 0x7
  | .CALL => 0x8 | .EXIT => 0x9 | .JLT => 0xa | .JLE => 0xb
  | .JSLT => 0xc | .JSLE => 0xd | .code_e => 0xe | .code_f => 0xf

def OpSrc.code : OpSrc → Nat
  | .imm => 0 | .reg => 1

def OpSize.code : OpSize → Nat
  | .W => 0 | .H => 1 | .B => 2 | .DW => 3

def OpMode.code : OpMode → Nat
  | .IMM => 0 | .ABS => 1 | .IND => 2 | .MEM => 3
  | .MEMSX => 4 | .mode_5 => 5 | .ATOMIC => 6 | .mode_7 => 7

/-- An opcode, put together from its fields. -/
def opcodeFrom (c : OpClass) (src : OpSrc) (alu : AluOp) (jmp : JmpOp) (size : OpSize)
    (mode : OpMode) : Nat :=
  match c with
  | .ALU | .ALU64 => c.code + 8 * src.code + 16 * alu.code
  | .JMP | .JMP32 => c.code + 8 * src.code + 16 * jmp.code
  | _ => c.code + 8 * size.code + 32 * mode.code

namespace Instr

def opcode (i : Instr) : Nat :=
  opcodeFrom i.opcodeClass i.opcodeS i.aluCode i.jmpCode i.opcodeSz i.opcodeMode

/-- A signed number in `k` bytes, lowest first. -/
def signedBytes (k : Nat) (n : Int) : List UInt8 := leBytes k (n % 2 ^ (8 * k)).toNat

/-- The bytes of an instruction. The second slot of a wide one is laid out with it. -/
def encode (i : Instr) : List UInt8 :=
  match i.opcodeClass with
  | .nop => []
  | _ =>
      [UInt8.ofNat i.opcode, UInt8.ofNat (16 * i.srcReg + i.dstReg)] ++ signedBytes 2 i.offset ++
        signedBytes 4 i.imm ++ if i.wideInstr then leBytes 8 i.nextImm else []

end Instr

/-- The bytes of a section. -/
def encodeText (is : List Instr) : List UInt8 := is.flatMap Instr.encode

section Bytes

theorem leBytes_bytesNat (bs : List UInt8) : leBytes bs.length (bytesNat bs) = bs := by
  induction bs with
  | nil => rfl
  | cons b bs ih =>
      have hlow : UInt8.ofNat (b.toNat + 256 * bytesNat bs) = b := by
        apply UInt8.toNat_inj.mp
        have hb := b.toNat_lt
        rw [UInt8.toNat_ofNat']
        omega
      have hrest : (b.toNat + 256 * bytesNat bs) / 256 = bytesNat bs := by
        have hb := b.toNat_lt
        omega
      rw [List.length_cons, leBytes, bytesNat, hlow, hrest, ih]

theorem signedBytes_signedOf {bs : List UInt8} {k : Nat} (hk : bs.length = k) :
    Instr.signedBytes k (signedOf (8 * k) (bytesNat bs)) = bs := by
  subst hk
  have hlt : (bytesNat bs : Int) < 2 ^ (8 * bs.length) := by exact_mod_cast bytesNat_lt bs
  have hself : (bytesNat bs : Int) % 2 ^ (8 * bs.length) = bytesNat bs :=
    Int.emod_eq_of_lt (Int.natCast_nonneg _) hlt
  have hmod : (signedOf (8 * bs.length) (bytesNat bs) % 2 ^ (8 * bs.length)).toNat = bytesNat bs := by
    unfold signedOf
    split
    · rw [Int.sub_emod_right, hself, Int.toNat_natCast]
    · rw [hself, Int.toNat_natCast]
  rw [Instr.signedBytes, hmod, leBytes_bytesNat]

end Bytes

section Parse

variable {idx : Nat} {op regs : UInt8} {offset imm next : List UInt8} {i : Instr}

/-- The opcode is put together from the fields that it was taken apart into. -/
theorem opcodeFrom_parts : ∀ n < 256, opcodeFrom (opClassOf n)
    (if n / 8 % 2 = 1 then .reg else .imm) (aluOpOf n) (jmpOpOf n) (opSizeOf n) (opModeOf n) = n := by
  decide +kernel

theorem regOf_ok {nibble : Nat} {r : Reg} (h : regOf idx nibble = .ok r) : (r : Nat) = nibble := by
  unfold regOf at h
  split at h
  · cases h
    rfl
  · cases h

theorem opClassOf_ne_nop (n : Nat) : opClassOf n ≠ .nop := by
  unfold opClassOf
  split <;> simp

theorem encode_of_ne_nop (h : i.opcodeClass ≠ .nop) :
    i.encode = [UInt8.ofNat i.opcode, UInt8.ofNat (16 * i.srcReg + i.dstReg)] ++
      Instr.signedBytes 2 i.offset ++ Instr.signedBytes 4 i.imm ++
        if i.wideInstr then leBytes 8 i.nextImm else [] := by
  unfold Instr.encode
  split
  · contradiction
  · rfl

/-- An instruction is written out as it was read. -/
theorem encode_parseBytecode (hoffset : offset.length = 2) (himm : imm.length = 4)
    (h : parseBytecode idx op regs offset imm next = .ok i) :
    i.opcodeClass ≠ .nop ∧ i.encode = [op, regs] ++ offset ++ imm ++
      if op = 0x18 then leBytes 8 (bytesNat next) else [] := by
  obtain ⟨src, hsrc, h⟩ := Lib.bind_eq_ok.mp h
  obtain ⟨dst, hdst, h⟩ := Lib.bind_eq_ok.mp h
  have hop := op.toNat_lt
  have hregs := regs.toNat_lt
  have hregister : UInt8.ofNat (16 * src + dst) = regs := by
    apply UInt8.toNat_inj.mp
    rw [regOf_ok hsrc, regOf_ok hdst, UInt8.toNat_ofNat']
    omega
  have hwide : op.toNat = 0x18 ↔ op = 0x18 := by
    rw [← UInt8.toNat_inj]
    rfl
  obtain rfl := Except.ok.inj h
  have hclass : opClassOf op.toNat ≠ .nop := opClassOf_ne_nop _
  refine ⟨hclass, ?_⟩
  rw [encode_of_ne_nop hclass, Instr.opcode, opcodeFrom_parts op.toNat hop,
    UInt8.ofNat_toNat, hregister, signedBytes_signedOf hoffset, signedBytes_signedOf himm]
  simp only [decide_eq_true_eq, hwide]
  split <;> rfl

end Parse

/-! ## The section -/

/-- What the text section `data` decoded to: written out, the instructions are the section,
with the missing half of a wide instruction at its end as zeros, and every entry but the
second slots stands at its own place. -/
structure Lossless (data : List UInt8) (is : List Instr) (pad : Nat) : Prop where
  bytes : encodeText is = data ++ List.replicate pad 0
  slots : 8 * is.length = data.length + pad
  stands : ∀ k i, is[k]? = some i → i.opcodeClass ≠ .nop →
    StandsAt (data ++ List.replicate pad 0) (8 * k) i.encode

section Text

variable {idx : Nat} {data front : List UInt8} {is : List Instr} {i : Instr} {pad pos : Nat}

theorem encodeText_cons : encodeText (i :: is) = i.encode ++ encodeText is := List.flatMap_cons

theorem StandsAt.after {bytes : List UInt8} (h : StandsAt data pos bytes) (front : List UInt8) :
    StandsAt (front ++ data) (front.length + pos) bytes := by
  unfold StandsAt
  rw [← List.drop_drop, List.drop_left]
  exact h

theorem Lossless.nil : Lossless [] [] 0 where
  bytes := rfl
  slots := rfl
  stands := by simp

/-- An instruction of one slot before the others. -/
theorem Lossless.narrow (h : Lossless data is pad)
    (hfront : i.encode = front) (hlen : front.length = 8) : Lossless (front ++ data) (i :: is) pad where
  bytes := by rw [encodeText_cons, hfront, h.bytes, List.append_assoc]
  slots := by
    have hslots := h.slots
    rw [List.length_cons, List.length_append]
    omega
  stands k j hj hnop := by
    rw [List.append_assoc]
    cases k with
    | zero =>
        obtain rfl := Option.some.inj hj
        rw [hfront]
        exact List.prefix_append _ _
    | succ k =>
        have hstands := (h.stands k j hj hnop).after front
        rwa [hlen, show 8 + 8 * k = 8 * (k + 1) by omega] at hstands

/-- An instruction of two slots before the others. -/
theorem Lossless.wide (h : Lossless data is pad)
    (hfront : i.encode = front) (hlen : front.length = 16) :
    Lossless (front ++ data) (i :: .nop :: is) pad where
  bytes := by
    rw [encodeText_cons, encodeText_cons, hfront, h.bytes, List.append_assoc]
    rfl
  slots := by
    have hslots := h.slots
    rw [List.length_cons, List.length_cons, List.length_append]
    omega
  stands k j hj hnop := by
    rw [List.append_assoc]
    rcases k with _ | _ | k
    · obtain rfl := Option.some.inj hj
      rw [hfront]
      exact List.prefix_append _ _
    · obtain rfl := Option.some.inj hj
      exact absurd rfl hnop
    · have hstands := (h.stands k j hj hnop).after front
      rwa [hlen, show 16 + 8 * k = 8 * (k + 1 + 1) by omega] at hstands

/-- The first half of a wide instruction with nothing behind it. -/
theorem Lossless.half (hfront : i.encode = front ++ List.replicate 8 0) (hlen : front.length = 8) :
    Lossless front [i, .nop] 8 where
  bytes := by
    rw [encodeText_cons, hfront]
    exact List.append_nil _
  slots := by simp [hlen]
  stands k j hj hnop := by
    rcases k with _ | _ | k
    · obtain rfl := Option.some.inj hj
      rw [hfront]
      exact List.prefix_refl _
    · obtain rfl := Option.some.inj hj
      exact absurd rfl hnop
    · simp at hj

theorem rest_of_short {rest : List UInt8} (hshort : ∀ a b c d e f g k more,
    rest = a :: b :: c :: d :: e :: f :: g :: k :: more → False) (hlen : rest.length % 8 = 0) :
    rest = [] := by
  rcases rest with _ | ⟨a, _ | ⟨b, _ | ⟨c, _ | ⟨d, _ | ⟨e, _ | ⟨f, _ | ⟨g, _ | ⟨k, more⟩⟩⟩⟩⟩⟩⟩⟩
  · rfl
  iterate 7
    · simp at hlen
  · exact absurd rfl (hshort a b c d e f g k more)

theorem lossless_decodeInstrs (h : decodeInstrs idx data = .ok is) (hlen : data.length % 8 = 0) :
    ∃ pad, Lossless data is pad ∧ (pad = 0 ∨ pad = 8) := by
  induction idx, data using decodeInstrs.induct generalizing is with
  | case1 idx regs o0 o1 i0 i1 i2 i3 n0 n1 n2 n3 n4 n5 n6 n7 rest ih =>
      rw [decodeInstrs, if_pos rfl] at h
      obtain ⟨i, hi, h⟩ := Lib.bind_eq_ok.mp h
      obtain ⟨tail, htail, h⟩ := Lib.bind_eq_ok.mp h
      cases h
      obtain ⟨pad, hrest, hpad⟩ := ih htail (by simp only [List.length_cons] at hlen; omega)
      have hbytes := (encode_parseBytecode rfl rfl hi).2
      have hnext := leBytes_bytesNat [n0, n1, n2, n3, n4, n5, n6, n7]
      dsimp only [List.length_cons, List.length_nil] at hnext
      rw [if_pos rfl, hnext] at hbytes
      exact ⟨pad, hrest.wide hbytes rfl, hpad⟩
  | case2 idx regs o0 o1 i0 i1 i2 i3 rest hshort =>
      have hrest : rest = [] := rest_of_short hshort (by simp only [List.length_cons] at hlen; omega)
      subst hrest
      unfold decodeInstrs at h
      rw [if_pos rfl] at h
      obtain ⟨i, hi, h⟩ := Lib.bind_eq_ok.mp h
      cases h
      have hbytes := (encode_parseBytecode rfl rfl hi).2
      rw [if_pos rfl] at hbytes
      exact ⟨8, Lossless.half hbytes rfl, .inr rfl⟩
  | case3 idx op regs o0 o1 i0 i1 i2 i3 rest hop ih =>
      unfold decodeInstrs at h
      rw [if_neg hop] at h
      obtain ⟨i, hi, h⟩ := Lib.bind_eq_ok.mp h
      obtain ⟨tail, htail, h⟩ := Lib.bind_eq_ok.mp h
      cases h
      obtain ⟨pad, hrest, hpad⟩ := ih htail (by simp only [List.length_cons] at hlen; omega)
      have hbytes := (encode_parseBytecode rfl rfl hi).2
      rw [if_neg hop, List.append_nil] at hbytes
      exact ⟨pad, hrest.narrow hbytes rfl, hpad⟩
  | case4 data idx hshort =>
      have hdata : data = [] := rest_of_short hshort hlen
      subst hdata
      cases h
      exact ⟨0, Lossless.nil, .inl rfl⟩

end Text

end Hornet
