import Hornet.Verify.Slice
import Hornet.Track.LookupHit
import Hornet.Verify.Checker

/-!
The filter that drops writes before a read is resolved, against the overlap it
approximates. The overlap is one of bytes: packet and `.bss` addresses are taken
modulo the width of their array, keys as the bytes of the map. The filter compares
the integers of the tracker instead.
-/

namespace Hornet

open Smt

variable {maps : List MapInfo}

/-- The bytes from an offset, at least one. -/
def Spans (off : Int) (size : Nat) (a : Int) : Prop := off ≤ a ∧ a < off + max size 1

/-- The location and a write moved by `d` have an offset in common. -/
def SharesOffset (loc : Loc) (w : Action) (d : Int) : Prop :=
  ∃ a, Spans loc.off loc.size a ∧ Spans (w.off + d) w.size a

/-- They have an address of `bits` bits in common. -/
def SharesAddress (bits : Nat) (loc : Loc) (w : Action) (d : Int) : Prop :=
  ∃ a b, Spans loc.off loc.size a ∧ Spans (w.off + d) w.size b ∧
    BitVec.ofInt bits a = BitVec.ofInt bits b

theorem SharesOffset.address {loc : Loc} {w : Action} {d : Int} (h : SharesOffset loc w d)
    (bits : Nat) : SharesAddress bits loc w d := by
  obtain ⟨a, hloc, hw⟩ := h
  exact ⟨a, a, hloc, hw, rfl⟩

/-- Two ranges have a byte in common exactly when each starts before the other ends. -/
theorem sharesOffset_iff {loc : Loc} {w : Action} {d : Int} :
    SharesOffset loc w d ↔
      loc.off < w.off + d + max w.size 1 ∧ w.off + d < loc.off + max loc.size 1 := by
  constructor
  · rintro ⟨a, ⟨hlo, hhi⟩, hlo', hhi'⟩
    omega
  · rintro ⟨hloc, hw⟩
    refine ⟨max loc.off (w.off + d), ?_, ?_⟩ <;> constructor <;> omega

section Overlap

variable (R : Option (Reads maps)) (blk : Option Nat) (st : Z3State maps) (m : ZModel)

/-- How far the variable offset of a write moves it. -/
def Action.displacement (w : Action) : Except LowerError Nat := do
  let v ← optToZ3 R blk st w.varOff
  pure ((v.map (·.toNat m)).getD 0)

/-- The location and the write are in the same entry of the same map. -/
def SameEntry (loc : Loc) (w : Action) : Prop :=
  ∃ mapId k k', loc.mapId = some mapId ∧ w.mapId = some mapId ∧
    mapKeyZ3 R blk st mapId loc.mapKey = .ok k ∧ mapKeyZ3 R blk st mapId w.mapKey = .ok k' ∧
    k.eval m = k'.eval m

/-- The location and the write have a byte in common. -/
def Touches (loc : Loc) (w : Action) : Prop :=
  w.region = some loc.region ∧ ∃ d : Nat, w.displacement R blk st m = .ok d ∧
    match loc.region with
    | .PKT => SharesAddress PKT_ADDR_BITS loc w d
    | .BSS => loc.bssKey = w.bssKey ∧ SharesAddress BSS_ADDR_BITS loc w d
    | .MAP => SameEntry R blk st m loc w ∧ SharesOffset loc w d
    | .CTX => False

/-- The filter does not drop the write if it has a byte of the location. -/
def OverlapKept (loc : Loc) (w : Action) : Prop :=
  Touches R blk st m loc w → mayAlias loc w = true

end Overlap

/-- The bytes of a key that a constant of `size` bytes stands for. -/
def constKey (bits : Nat) (n : Int) (size : Nat) : BitVec bits :=
  BitVec.ofNat bits (BitVec.ofInt (size * 8) n).toNat

/-- A common byte of the location and the write is one of the integers, too: constant
keys with the same bytes are the same integer, and constant offsets that meet modulo
the width of their array meet. -/
structure AlikeAsIntegers (maps : List MapInfo) (loc : Loc) (w : Action)
    (displaced : Nat → Prop) : Prop where
  key : ∀ mapId a size idx a' size' idx', loc.region = .MAP → loc.mapId = some mapId →
    w.mapId = some mapId → loc.mapKey = some (.num a size idx) →
    w.mapKey = some (.num a' size' idx') →
    constKey (keyBits maps mapId) a size = constKey (keyBits maps mapId) a' size' →
    (∃ d, displaced d ∧ SharesOffset loc w d) → a = a'
  pkt : loc.region = .PKT → w.varOff = none → SharesAddress PKT_ADDR_BITS loc w 0 →
    SharesOffset loc w 0
  bss : loc.region = .BSS → w.varOff = none → loc.bssKey = w.bssKey →
    SharesAddress BSS_ADDR_BITS loc w 0 → SharesOffset loc w 0

section Filter

variable {R : Option (Reads maps)} {blk : Option Nat} {st : Z3State maps} {m : ZModel}
variable {loc : Loc} {w : Action}

theorem displacement_const (h : w.varOff = none) : w.displacement R blk st m = .ok 0 := by
  unfold Action.displacement
  rw [h]
  rfl

variable (R blk st m) in
theorem mapKeyZ3_num (mapId : Nat) (n : Int) (size : Nat) (idx : Int) :
    ∃ k, mapKeyZ3 R blk st mapId (some (.num n size idx)) = .ok k ∧
      k.eval m = constKey (keyBits maps mapId) n size := by
  have hnum : exprToZ3 R blk st (.num n size idx) = .ok ⟨size * 8, bvVal n (size * 8)⟩ := rfl
  refine ⟨_, mapKeyZ3_ok hnum mapId, ?_⟩
  rw [eval_resize]
  rfl

theorem num?_eq_some {e : Expr} {n : Int} (h : e.num? = some n) :
    ∃ size idx, e = .num n size idx := by
  cases e with
  | num k size idx =>
      cases h
      exact ⟨size, idx, rfl⟩
  | _ => cases h

/-- What the filter lets pass. -/
theorem mayAlias_iff :
    mayAlias loc w = true ↔
      w.region = some loc.region ∧
      (loc.region = .MAP → loc.mapId = w.mapId ∧
        ∀ a a', loc.mapKey.bind Expr.num? = some a → w.mapKey.bind Expr.num? = some a' → a = a') ∧
      (loc.region = .BSS → ∀ k k', loc.bssKey = some k → w.bssKey = some k' → k = k') ∧
      (w.varOff = none → SharesOffset loc w 0) := by
  have hmeet : (loc.off < w.off + max w.size 1 && w.off < loc.off + max loc.size 1) = true ↔
      SharesOffset loc w 0 := by
    rw [sharesOffset_iff, Bool.and_eq_true, decide_eq_true_iff, decide_eq_true_iff]
    omega
  have hoff : (if w.varOff.isSome then true
        else loc.off < w.off + max w.size 1 && w.off < loc.off + max loc.size 1) = true ↔
      (w.varOff = none → SharesOffset loc w 0) := by
    cases hvar : w.varOff with
    | none => simpa using hmeet
    | some v => simp
  unfold mayAlias
  rw [← hoff]
  by_cases hregion : w.region = some loc.region
  · cases hloc : loc.region with
    | PKT | CTX => simp [hregion, hloc]
    | MAP =>
        by_cases hid : loc.mapId = w.mapId
        · cases hk : loc.mapKey.bind Expr.num? with
          | none => simp [hregion, hloc, hid]
          | some a => cases hk' : w.mapKey.bind Expr.num? <;> simp [hregion, hloc, hid]
        · simp [hregion, hloc, hid]
    | BSS =>
        cases hk : loc.bssKey with
        | none => simp [hregion, hloc]
        | some k => cases hk' : w.bssKey <;> simp [hregion, hloc]
  · simp [hregion]

end Filter

/-- The filter keeps a write that has a byte of the location exactly when the common
byte is one of the integers that it compares. -/
theorem overlap_kept_iff (R : Option (Reads maps)) (blk : Option Nat) (st : Z3State maps)
    (m : ZModel) (loc : Loc) (w : Action) :
    OverlapKept R blk st m loc w ↔ (w.region = some loc.region →
      AlikeAsIntegers maps loc w fun d => w.displacement R blk st m = .ok d) := by
  constructor
  · intro h hregion
    constructor
    · intro mapId a size idx a' size' idx' hloc hid hwid hkey hwkey hbytes ⟨d, hd, hshares⟩
      obtain ⟨k, hk, heval⟩ := mapKeyZ3_num R blk st m mapId a size idx
      obtain ⟨k', hk', heval'⟩ := mapKeyZ3_num R blk st m mapId a' size' idx'
      have hentry : SameEntry R blk st m loc w :=
        ⟨mapId, k, k', hid, hwid, by rw [hkey, hk], by rw [hwkey, hk'],
          by rw [heval, heval', hbytes]⟩
      have htouch : Touches R blk st m loc w := by
        refine ⟨hregion, d, hd, ?_⟩
        rw [hloc]
        exact ⟨hentry, hshares⟩
      have hmap := (mayAlias_iff.mp (h htouch)).2.1 hloc
      exact hmap.2 a a' (by rw [hkey]; rfl) (by rw [hwkey]; rfl)
    · intro hloc hvar hshares
      have htouch : Touches R blk st m loc w := by
        refine ⟨hregion, 0, displacement_const hvar, ?_⟩
        rw [hloc]
        exact hshares
      exact (mayAlias_iff.mp (h htouch)).2.2.2 hvar
    · intro hloc hvar hsym hshares
      have htouch : Touches R blk st m loc w := by
        refine ⟨hregion, 0, displacement_const hvar, ?_⟩
        rw [hloc]
        exact ⟨hsym, hshares⟩
      exact (mayAlias_iff.mp (h htouch)).2.2.2 hvar
  · intro h ⟨hregion, d, hd, htouch⟩
    obtain ⟨hkey, hpkt, hbss⟩ := h hregion
    have hconst : w.varOff = none → d = 0 := fun hvar =>
      Except.ok.inj (hd.symm.trans (displacement_const hvar))
    apply mayAlias_iff.mpr
    refine ⟨hregion, ?_, ?_, ?_⟩
    · intro hloc
      rw [hloc] at htouch
      obtain ⟨⟨mapId, k, k', hid, hwid, hk, hk', heval⟩, hshares⟩ := htouch
      refine ⟨hid.trans hwid.symm, fun a a' ha ha' => ?_⟩
      obtain ⟨e, he, hnum⟩ := Option.bind_eq_some_iff.mp ha
      obtain ⟨e', he', hnum'⟩ := Option.bind_eq_some_iff.mp ha'
      obtain ⟨size, idx, rfl⟩ := num?_eq_some hnum
      obtain ⟨size', idx', rfl⟩ := num?_eq_some hnum'
      obtain ⟨c, hc, hbytes⟩ := mapKeyZ3_num R blk st m mapId a size idx
      obtain ⟨c', hc', hbytes'⟩ := mapKeyZ3_num R blk st m mapId a' size' idx'
      rw [he, hc] at hk
      rw [he', hc'] at hk'
      cases hk
      cases hk'
      exact hkey mapId a size idx a' size' idx' hloc hid hwid he he'
        (hbytes.symm.trans (heval.trans hbytes')) ⟨d, hd, hshares⟩
    · intro hloc k k' hk hk'
      rw [hloc] at htouch
      exact Option.some.inj (hk.symm.trans (htouch.1.trans hk'))
    · intro hvar
      obtain rfl := hconst hvar
      cases hloc : loc.region with
      | PKT =>
          rw [hloc] at htouch
          exact hpkt hloc hvar htouch
      | BSS =>
          rw [hloc] at htouch
          exact hbss hloc hvar htouch.1 htouch.2
      | MAP =>
          rw [hloc] at htouch
          exact htouch.2
      | CTX =>
          rw [hloc] at htouch
          exact htouch.elim

/-- Stores the key `0xffffffffffffffff` twice, once from an immediate and once from a
`lddw`; updates the entry with the first and reads it back with the second. -/
def keyTwice : Program :=
  { instrs := [
      { exitInstr with opcodeClass := .ST, opcodeMode := .MEM, opcodeSz := .DW, dstReg := 10
                       offset := -8, imm := -1 },
      { exitInstr with opcodeClass := .ALU64, aluCode := .MOV, opcodeS := .reg, srcReg := 10
                       dstReg := 2 },
      { exitInstr with opcodeClass := .ALU64, aluCode := .ADD, dstReg := 2, imm := -8 },
      { exitInstr with opcodeClass := .ALU64, aluCode := .MOV, opcodeS := .reg, srcReg := 2
                       dstReg := 3 },
      { exitInstr with opcodeClass := .ALU64, aluCode := .MOV, dstReg := 4 },
      { exitInstr with opcodeClass := .LD, opcodeSz := .DW, dstReg := 1, wideInstr := true
                       reloc := some (.map 0) },
      .nop,
      { exitInstr with jmpCode := .CALL, imm := 2 },
      { exitInstr with opcodeClass := .LD, opcodeSz := .DW, dstReg := 1, wideInstr := true
                       imm := -1, nextImm := 0xffffffff00000000 },
      .nop,
      { exitInstr with opcodeClass := .STX, opcodeMode := .MEM, opcodeSz := .DW, srcReg := 1
                       dstReg := 10, offset := -8 },
      { exitInstr with opcodeClass := .ALU64, aluCode := .MOV, opcodeS := .reg, srcReg := 10
                       dstReg := 2 },
      { exitInstr with opcodeClass := .ALU64, aluCode := .ADD, dstReg := 2, imm := -8 },
      { exitInstr with opcodeClass := .LD, opcodeSz := .DW, dstReg := 1, wideInstr := true
                       reloc := some (.map 0) },
      .nop,
      { exitInstr with jmpCode := .CALL, imm := 1 },
      { exitInstr with jmpCode := .JEQ, dstReg := 0, offset := 1 },
      { exitInstr with opcodeClass := .LDX, opcodeMode := .MEM, opcodeSz := .DW },
      exitInstr]
    maps := [⟨"counters", 1, 8, 8, 16⟩], progs := [], rodata := [] }

/-- An update by the key `-1` in the first block, and a read of the entry of `2 ^ 64 - 1` at
the end of the second. -/
def updatesThenReads : List Block → Bool
  | b :: b' :: _ =>
      match b.actions.head?.map Event.action, b'.reg 0 with
      | some (.mapUpdate (some mapId) (some (.num k size _)) _ _ _),
          some (.mapVal _ _ (some mapId') (some (.num k' size' _)) _ off none 8) =>
          mapId = 0 && k = -1 && size = 8 && mapId' = 0 && k' = 2 ^ 64 - 1 && size' = 8 && off = 0
      | _, _ => false
  | _ => false

theorem of_updatesThenReads {bs : List Block} (h : updatesThenReads bs = true) :
    ∃ b b' e idx value flags size block at' idx' kid, b ∈ bs ∧ b' ∈ bs ∧ e ∈ b.actions ∧
      e.action = .mapUpdate (some 0) (some (.num (-1) 8 idx)) value flags size ∧
      b'.reg 0 = some (.mapVal block at' (some 0) (some (.num (2 ^ 64 - 1) 8 idx')) kid 0 none 8) := by
  unfold updatesThenReads at h
  split at h
  · rename_i b b' rest
    split at h
    · rename_i mapId k size idx value flags total block at' mapId' k' size' idx' kid off hact hreg
      simp only [Bool.and_eq_true, decide_eq_true_iff] at h
      obtain ⟨⟨⟨⟨⟨⟨rfl, rfl⟩, rfl⟩, rfl⟩, rfl⟩, rfl⟩, rfl⟩ := h
      obtain ⟨e, he, haction⟩ := Option.map_eq_some_iff.mp hact
      exact ⟨b, b', e, idx, value, flags, total, block, at', idx', kid, .head _, .tail _ (.head _),
        List.mem_of_head? he, haction, hreg⟩
    · cases h
  · cases h

theorem keyTwice_tracked : ∃ cfg t, buildCfg keyTwice.instrs keyTwice.progs = .ok cfg ∧
    track keyTwice cfg = .ok t ∧ updatesThenReads t.blocks = true := by
  have h : Lib.okAnd (buildCfg keyTwice.instrs keyTwice.progs) (fun cfg =>
      Lib.okAnd (track keyTwice cfg) fun t => updatesThenReads t.blocks) = true := by
    decide +kernel
  obtain ⟨cfg, hcfg, h⟩ := Lib.okAnd_eq_true h
  obtain ⟨t, ht, h⟩ := Lib.okAnd_eq_true h
  exact ⟨cfg, t, hcfg, ht, h⟩

/-- The update of `keyTwice` is dropped from the read of the entry that it wrote. -/
theorem overlap_kept_violated : ∃ cfg t b b' e block idx mapId mapKey kid,
    buildCfg keyTwice.instrs keyTwice.progs = .ok cfg ∧ track keyTwice cfg = .ok t ∧
    b ∈ t.blocks ∧ b' ∈ t.blocks ∧ e ∈ b.actions ∧
    b'.reg 0 = some (.mapVal block idx mapId mapKey kid 0 none 8) ∧
    ¬ OverlapKept none none (makeInitState keyTwice.maps) (Model.ofNats fun _ => none)
      ⟨.MAP, 0, 1, mapId, mapKey, none⟩ e.action := by
  obtain ⟨cfg, t, hcfg, ht, hblocks⟩ := keyTwice_tracked
  obtain ⟨b, b', e, i, value, flags, size, block, at', i', kid, hb, hb', he, haction, hreg⟩ :=
    of_updatesThenReads hblocks
  refine ⟨cfg, t, b, b', e, block, at', _, _, kid, hcfg, ht, hb, hb', he, hreg, fun h => ?_⟩
  rw [haction] at h
  have hentry : SameEntry none none (makeInitState keyTwice.maps) (Model.ofNats fun _ => none)
      ⟨.MAP, 0, 1, some 0, some (.num (2 ^ 64 - 1) 8 i'), none⟩
      (.mapUpdate (some 0) (some (.num (-1) 8 i)) value flags size) :=
    ⟨0, _, _, rfl, rfl, rfl, rfl, rfl⟩
  have hshares : SharesOffset ⟨.MAP, 0, 1, some 0, some (.num (2 ^ 64 - 1) 8 i'), none⟩
      (.mapUpdate (some 0) (some (.num (-1) 8 i)) value flags size) 0 := by
    apply sharesOffset_iff.mpr
    simp only [Action.off, Action.size]
    omega
  have hkept := h ⟨rfl, 0, rfl, hentry, hshares⟩
  have hkeys := (mayAlias_iff.mp hkept).2.1 rfl
  have hsame := hkeys.2 _ _ rfl rfl
  omega

end Hornet
