import Mathlib.Algebra.Ring.Nat
import Mathlib.Data.List.Basic
import Mathlib.Tactic.Common

/-!
The packet of a specification. A packet expression is a list of layers, a layer a list
of fields that need not end at a byte. The bytes of a layer are built by the library's
`addfield`, and beside them a mask that marks the bytes which the expression fixes.
-/

namespace Hornet

/-- The bytes built so far; `rest` are the bits left over, as their number and value. -/
structure PacketBuf where
  bytes : List UInt8
  rest : Option (Nat × Nat)
  deriving DecidableEq

namespace PacketBuf

def empty : PacketBuf := ⟨[], none⟩

/-- No bits are left over. -/
def isBytes (p : PacketBuf) : Bool := p.rest.isNone

/-- How many bits are left over. -/
def bits (p : PacketBuf) : Nat := (p.rest.map (·.1)).getD 0

/-- The buffer holds the first `b` bits of a layer. -/
def Holds (p : PacketBuf) (b : Nat) : Prop := p.bytes.length = b / 8 ∧ p.bits = b % 8

end PacketBuf

/-- A layer with bits left over at its end is rejected. -/
inductive LayerError where
  | unalignedBitfieldHeader
  deriving DecidableEq, Repr

section Layers

variable {F : Type} (assigned : F → Bool) (addfield : PacketBuf → F → PacketBuf)

/-- The fold over the fields: the bytes, whether all fields since the last whole byte
were assigned, and the mask. -/
structure MaskState where
  p : PacketBuf
  groupExplicit : Bool
  mask : List Bool

def MaskState.add (s : MaskState) (f : F) : MaskState :=
  let p := addfield s.p f
  let groupExplicit := s.groupExplicit && assigned f
  if p.isBytes then
    { p := p, groupExplicit := true
      mask := s.mask ++ List.replicate (p.bytes.length - s.p.bytes.length) groupExplicit }
  else { p := p, groupExplicit := groupExplicit, mask := s.mask }

def layerByteFacts (fieldsDesc : List F) : Except LayerError (List UInt8 × List Bool) :=
  let s := fieldsDesc.foldl (MaskState.add assigned addfield) ⟨PacketBuf.empty, true, []⟩
  if s.p.isBytes then pure (s.p.bytes, s.mask) else throw .unalignedBitfieldHeader

def packetByteFacts : List (List F) → Except LayerError (List UInt8 × List Bool)
  | [] => pure ([], [])
  | layer :: layers => do
      let (p, mask) ← layerByteFacts assigned addfield layer
      let (bytes, rest) ← packetByteFacts layers
      pure (p ++ bytes, mask ++ rest)

/-- The bytes that `input.packet` fixes. -/
def pktBytes (refBytes : List UInt8) (mask : List Bool) : List (Nat × Option UInt8) :=
  (mask.zipIdx.filter (·.1)).map fun x => (x.2, refBytes[x.2]?)

variable (width : F → Nat)

/-- The number of bits of the fields. -/
def bitsOf (layer : List F) : Nat := (layer.map width).sum

/-- `f` is the field that the bit of the layer belongs to. -/
def FieldAt (layer : List F) (bit : Nat) (f : F) : Prop :=
  ∃ pre post, layer = pre ++ f :: post ∧ bitsOf width pre ≤ bit ∧ bit < bitsOf width pre + width f

/-- What `addfield` does: every completed byte is emitted and the bits left over are
carried along. -/
structure EmitsCompleted : Prop where
  holds : ∀ p f b, p.Holds b → (addfield p f).Holds (b + width f)
  isBytes : ∀ p f, (addfield p f).isBytes = true ↔ (addfield p f).bits = 0

/-- The mask has an entry for each byte, and marks a byte only when every field with a
bit of it was assigned. -/
structure MaskExact (layer : List F) (bytes : List UInt8) (mask : List Bool) : Prop where
  length : mask.length = bytes.length
  marked : ∀ i, mask[i]? = some true → ∀ bit f, bit / 8 = i → FieldAt width layer bit f →
    assigned f = true

/-- No field from the bit `b` on both completes a byte and leaves bits over. -/
def NoSplit (b : Nat) : List F → Prop
  | [] => True
  | f :: fs => ((b + width f) % 8 = 0 ∨ (b + width f) / 8 = b / 8) ∧ NoSplit (b + width f) fs

variable {assigned addfield width}

theorem bitsOf_append (l₁ l₂ : List F) :
    bitsOf width (l₁ ++ l₂) = bitsOf width l₁ + bitsOf width l₂ := by
  simp [bitsOf]

theorem bitsOf_snoc (l : List F) (f : F) : bitsOf width (l ++ [f]) = bitsOf width l + width f := by
  simp [bitsOf]

/-- A bit of a list of fields is one of the first ones or one of the last field. -/
theorem fieldAt_append {l₁ l₂ : List F} {bit : Nat} {g : F} (h : FieldAt width (l₁ ++ l₂) bit g) :
    FieldAt width l₁ bit g ∨
      (bitsOf width l₁ ≤ bit ∧ FieldAt width l₂ (bit - bitsOf width l₁) g) := by
  obtain ⟨pre, post, hsplit, hlow, hhigh⟩ := h
  rcases List.append_eq_append_iff.mp hsplit with ⟨mid, hpre, hl₂⟩ | ⟨mid, hl₁, hpost⟩
  · right
    rw [hpre, bitsOf_append] at hlow hhigh
    refine ⟨by omega, mid, post, hl₂, by omega, by omega⟩
  · cases mid with
    | nil =>
        right
        rw [List.append_nil] at hl₁
        rw [← hl₁] at hlow hhigh
        exact ⟨hlow, [], post, hpost.symm, Nat.zero_le _, by simp [bitsOf] at *; omega⟩
    | cons f mid =>
        obtain ⟨rfl, rfl⟩ := List.cons_eq_cons.mp hpost
        exact .inl ⟨pre, mid, hl₁, hlow, hhigh⟩

theorem bitsOf_cons (f : F) (l : List F) : bitsOf width (f :: l) = width f + bitsOf width l := by
  simp [bitsOf]

theorem fieldAt_lt {l : List F} {bit : Nat} {g : F} (h : FieldAt width l bit g) :
    bit < bitsOf width l := by
  obtain ⟨pre, post, rfl, -, hhigh⟩ := h
  rw [bitsOf_append, bitsOf_cons]
  omega

theorem fieldAt_snoc {l : List F} {f g : F} {bit : Nat} (h : FieldAt width (l ++ [f]) bit g) :
    FieldAt width l bit g ∨ (bitsOf width l ≤ bit ∧ g = f) := by
  rcases fieldAt_append h with h | ⟨hle, pre, post, hone, -, -⟩
  · exact .inl h
  · right
    cases pre with
    | nil => exact ⟨hle, (List.cons_eq_cons.mp hone).1.symm⟩
    | cons f' pre =>
        have hnil := (List.cons_eq_cons.mp hone).2
        simp at hnil

/-- The invariant of the fold as long as no field splits a byte. -/
structure MaskInv (assigned : F → Bool) (width : F → Nat) (pre : List F) (s : MaskState) : Prop where
  holds : s.p.Holds (bitsOf width pre)
  length : s.mask.length = s.p.bytes.length
  marked : ∀ i, s.mask[i]? = some true → ∀ bit f, bit / 8 = i → FieldAt width pre bit f →
    assigned f = true
  group : s.groupExplicit = true → ∀ bit f, 8 * s.mask.length ≤ bit → FieldAt width pre bit f →
    assigned f = true

theorem maskInv_empty : MaskInv assigned width [] ⟨PacketBuf.empty, true, []⟩ := by
  have hnone : ∀ bit f, ¬ FieldAt width [] bit f := by
    rintro bit f ⟨pre, post, hsplit, -, -⟩
    simp at hsplit
  constructor
  · simp [PacketBuf.Holds, PacketBuf.empty, PacketBuf.bits, bitsOf]
  · rfl
  · exact fun i hi => by simp at hi
  · exact fun _ bit f _ hat => absurd hat (hnone bit f)

/-- The buffer after one more field. -/
theorem add_p (s : MaskState) (f : F) : (s.add assigned addfield f).p = addfield s.p f := by
  unfold MaskState.add
  dsimp only
  split <;> rfl

theorem maskInv_add (hadd : EmitsCompleted addfield width) {pre : List F} {s : MaskState} {f : F}
    (h : MaskInv assigned width pre s)
    (hsplit : (bitsOf width pre + width f) % 8 = 0 ∨
      (bitsOf width pre + width f) / 8 = bitsOf width pre / 8) :
    MaskInv assigned width (pre ++ [f]) (s.add assigned addfield f) := by
  obtain ⟨hlen, hbits⟩ := hadd.holds s.p f _ h.holds
  have hold := h.holds.1
  have hmask := h.length
  have hle : bitsOf width pre / 8 ≤ (bitsOf width pre + width f) / 8 :=
    Nat.div_le_div_right (Nat.le_add_right _ _)
  -- the bits of the new field lie beyond the bytes marked so far
  have hbeyond : ∀ bit, bitsOf width pre ≤ bit → 8 * s.mask.length ≤ bit := by
    intro bit hbit
    omega
  have hgroup : (s.groupExplicit && assigned f) = true → ∀ bit g, 8 * s.mask.length ≤ bit →
      FieldAt width (pre ++ [f]) bit g → assigned g = true := by
    intro hboth bit g hbit hat
    rw [Bool.and_eq_true] at hboth
    rcases fieldAt_snoc hat with hat | ⟨-, rfl⟩
    · exact h.group hboth.1 bit g hbit hat
    · exact hboth.2
  have hmarked : ∀ i, s.mask[i]? = some true → ∀ bit g, bit / 8 = i →
      FieldAt width (pre ++ [f]) bit g → assigned g = true := by
    intro i hi bit g hbit hat
    obtain ⟨hlt, -⟩ := List.getElem?_eq_some_iff.mp hi
    rcases fieldAt_snoc hat with hat | ⟨hge, -⟩
    · exact h.marked i hi bit g hbit hat
    · have hpast := hbeyond bit hge
      omega
  have hholds : (addfield s.p f).Holds (bitsOf width (pre ++ [f])) := by
    rw [bitsOf_snoc]
    exact ⟨hlen, hbits⟩
  unfold MaskState.add
  dsimp only
  by_cases haligned : (bitsOf width pre + width f) % 8 = 0
  · have hbytes : (addfield s.p f).isBytes = true := (hadd.isBytes s.p f).mpr (hbits.trans haligned)
    rw [if_pos hbytes]
    have hnew : (s.mask ++ List.replicate ((addfield s.p f).bytes.length - s.p.bytes.length)
        (s.groupExplicit && assigned f)).length = (addfield s.p f).bytes.length := by
      rw [List.length_append, List.length_replicate]
      omega
    constructor
    · exact hholds
    · exact hnew
    · intro i hi bit g hbit hat
      by_cases hlt : i < s.mask.length
      · rw [List.getElem?_append_left hlt] at hi
        exact hmarked i hi bit g hbit hat
      · rw [List.getElem?_append_right (by omega)] at hi
        have hboth := List.eq_of_mem_replicate (List.mem_of_getElem? hi)
        exact hgroup hboth.symm bit g (by omega) hat
    · intro _ bit g hbit hat
      have hlt := fieldAt_lt hat
      rw [bitsOf_snoc] at hlt
      dsimp only at hbit
      rw [hnew] at hbit
      omega
  · have hbytes : ¬ (addfield s.p f).isBytes = true := by
      intro hbytes
      exact haligned (hbits.symm.trans ((hadd.isBytes s.p f).mp hbytes))
    rw [if_neg hbytes]
    have hsame := hsplit.resolve_left haligned
    constructor
    · exact hholds
    · dsimp only
      omega
    · exact hmarked
    · exact hgroup

/-- The fold keeps the invariant. -/
theorem maskInv_run (hadd : EmitsCompleted addfield width) {fields pre : List F} {s : MaskState}
    (h : MaskInv assigned width pre s) (hsplit : NoSplit width (bitsOf width pre) fields) :
    MaskInv assigned width (pre ++ fields) (fields.foldl (MaskState.add assigned addfield) s) := by
  induction fields generalizing pre s with
  | nil =>
      rw [List.append_nil]
      exact h
  | cons f fields ih =>
      obtain ⟨hfirst, hrest⟩ := hsplit
      rw [← bitsOf_snoc] at hrest
      have hstep := ih (maskInv_add hadd h hfirst) hrest
      rw [List.append_assoc] at hstep
      exact hstep

/-- The mask never catches up with bytes that were completed beside bits left over. -/
theorem mask_behind (hadd : EmitsCompleted addfield width) {fields : List F} {s s' : MaskState}
    {b : Nat} (hs : s.p.Holds b) (hrun : fields.foldl (MaskState.add assigned addfield) s = s') :
    s'.p.Holds (b + bitsOf width fields) ∧
      s'.mask.length + s.p.bytes.length ≤ s'.p.bytes.length + s.mask.length ∧
      (s'.mask.length + s.p.bytes.length = s'.p.bytes.length + s.mask.length →
        NoSplit width b fields) := by
  induction fields generalizing s b with
  | nil =>
      obtain rfl : s = s' := hrun
      exact ⟨hs, by omega, fun _ => trivial⟩
  | cons f fields ih =>
      have hnext : (s.add assigned addfield f).p.Holds (b + width f) := by
        rw [add_p]
        exact hadd.holds s.p f b hs
      obtain ⟨hholds, hle, heq⟩ := ih hnext hrun
      have hold := hs.1
      have hnew := hnext.1
      have hmono : b / 8 ≤ (b + width f) / 8 := Nat.div_le_div_right (Nat.le_add_right _ _)
      have hbits : (addfield s.p f).bits = (b + width f) % 8 := (hadd.holds s.p f b hs).2
      rw [bitsOf_cons, ← Nat.add_assoc]
      by_cases haligned : (b + width f) % 8 = 0
      · have hbytes : (addfield s.p f).isBytes = true :=
          (hadd.isBytes s.p f).mpr (hbits.trans haligned)
        have hmask : (s.add assigned addfield f).mask.length =
            s.mask.length + ((s.add assigned addfield f).p.bytes.length - s.p.bytes.length) := by
          rw [add_p]
          unfold MaskState.add
          dsimp only
          rw [if_pos hbytes, List.length_append, List.length_replicate]
        refine ⟨hholds, by omega, fun hlast => ⟨.inl haligned, heq (by omega)⟩⟩
      · have hbytes : ¬ (addfield s.p f).isBytes = true := by
          intro hbytes
          exact haligned (hbits.symm.trans ((hadd.isBytes s.p f).mp hbytes))
        have hmask : (s.add assigned addfield f).mask.length = s.mask.length := by
          unfold MaskState.add
          dsimp only
          rw [if_neg hbytes]
        refine ⟨hholds, by omega, fun hlast => ⟨.inr (by omega), heq (by omega)⟩⟩

variable (assigned) in
/-- The facts of a layer of whole bytes. -/
theorem layerByteFacts_ok (hadd : EmitsCompleted addfield width) {layer : List F}
    (hbytes : bitsOf width layer % 8 = 0) :
    ∃ bytes mask, layerByteFacts assigned addfield layer = .ok (bytes, mask) ∧
      bytes.length = bitsOf width layer / 8 ∧
      (MaskExact assigned width layer bytes mask ↔ NoSplit width 0 layer) := by
  obtain ⟨s, hs⟩ : ∃ s, layer.foldl (MaskState.add assigned addfield)
      ⟨PacketBuf.empty, true, []⟩ = s := ⟨_, rfl⟩
  have hempty : PacketBuf.empty.Holds 0 := by
    simp [PacketBuf.Holds, PacketBuf.empty, PacketBuf.bits]
  obtain ⟨hholds, -, heq⟩ := mask_behind hadd hempty hs
  rw [Nat.zero_add] at hholds
  have hend : s.p.isBytes = true := by
    cases layer with
    | nil =>
        rw [← hs]
        rfl
    | cons f fields =>
        -- the last field was added by `addfield`
        obtain ⟨init, last, hlast⟩ : ∃ init last, f :: fields = init ++ [last] :=
          ⟨_, _, (List.dropLast_append_getLast (List.cons_ne_nil f fields)).symm⟩
        rw [hlast, List.foldl_append, List.foldl_cons, List.foldl_nil] at hs
        have hp : s.p = addfield (init.foldl (MaskState.add assigned addfield)
            ⟨PacketBuf.empty, true, []⟩).p last := by
          rw [← hs, add_p]
        rw [hp]
        apply (hadd.isBytes _ _).mpr
        rw [← hp, hholds.2, hbytes]
  refine ⟨s.p.bytes, s.mask, ?_, hholds.1, ?_⟩
  · simp only [layerByteFacts, hs, hend, if_true]
    rfl
  · constructor
    · intro hexact
      apply heq
      rw [hexact.length]
      rfl
    · intro hsplit
      have hinit : MaskInv assigned width [] ⟨PacketBuf.empty, true, []⟩ := maskInv_empty
      have hinv := maskInv_run hadd hinit hsplit
      rw [hs] at hinv
      exact ⟨hinv.length, hinv.marked⟩

/-- Masks of layers of whole bytes one after the other. -/
theorem maskExact_append {l₁ l₂ : List F} {b₁ b₂ : List UInt8} {m₁ m₂ : List Bool}
    (h₁ : MaskExact assigned width l₁ b₁ m₁) (h₂ : MaskExact assigned width l₂ b₂ m₂)
    (hlen : 8 * b₁.length = bitsOf width l₁) :
    MaskExact assigned width (l₁ ++ l₂) (b₁ ++ b₂) (m₁ ++ m₂) := by
  have hmask := h₁.length
  constructor
  · rw [List.length_append, List.length_append, h₁.length, h₂.length]
  · intro i hi bit f hbit hat
    by_cases hlt : i < m₁.length
    · rw [List.getElem?_append_left hlt] at hi
      rcases fieldAt_append hat with hat | ⟨hge, -⟩
      · exact h₁.marked i hi bit f hbit hat
      · omega
    · rw [List.getElem?_append_right (by omega)] at hi
      rcases fieldAt_append hat with hat | ⟨hge, hat⟩
      · have hend := fieldAt_lt hat
        omega
      · exact h₂.marked _ hi _ f (by omega) hat

variable (assigned) in
/-- The facts of a packet whose layers have exact masks. -/
theorem packetByteFacts_exact (hadd : EmitsCompleted addfield width) {layers : List (List F)}
    (hbytes : ∀ layer ∈ layers, bitsOf width layer % 8 = 0)
    (hsplit : ∀ layer ∈ layers, NoSplit width 0 layer) :
    ∃ bytes mask, packetByteFacts assigned addfield layers = .ok (bytes, mask) ∧
      MaskExact assigned width layers.flatten bytes mask := by
  induction layers with
  | nil =>
      refine ⟨[], [], rfl, rfl, ?_⟩
      intro i hi
      simp at hi
  | cons layer layers ih =>
      obtain ⟨p, mask, hlayer, hlen, hexact⟩ :=
        layerByteFacts_ok assigned hadd (hbytes layer List.mem_cons_self)
      obtain ⟨bytes, rest, hrest, hrestExact⟩ := ih
        (fun l hl => hbytes l (List.mem_cons_of_mem _ hl))
        (fun l hl => hsplit l (List.mem_cons_of_mem _ hl))
      refine ⟨p ++ bytes, mask ++ rest, ?_, ?_⟩
      · simp only [packetByteFacts, hlayer, hrest]
        rfl
      · have hwhole := hbytes layer List.mem_cons_self
        apply maskExact_append (hexact.mpr (hsplit layer List.mem_cons_self)) hrestExact
        omega

variable (assigned addfield width)

/-- The mask of every layer is exact, and `input.packet` fixes a byte of the packet only
when every field with a bit of it was assigned. -/
structure PacketExact (layers : List (List F)) : Prop where
  layer : ∀ l ∈ layers, ∃ bytes mask, layerByteFacts assigned addfield l = .ok (bytes, mask) ∧
    MaskExact assigned width l bytes mask
  pinned : ∃ bytes mask, packetByteFacts assigned addfield layers = .ok (bytes, mask) ∧
    ∀ i v, (i, v) ∈ pktBytes bytes mask → v = bytes[i]? ∧ i < bytes.length ∧
      ∀ bit f, bit / 8 = i → FieldAt width layers.flatten bit f → assigned f = true

/-- The packet mask is exact exactly when no field of a layer both completes a byte and
leaves bits over. -/
theorem packet_mask_exact_iff (hadd : EmitsCompleted addfield width) (layers : List (List F))
    (hbytes : ∀ layer ∈ layers, bitsOf width layer % 8 = 0) :
    PacketExact assigned addfield width layers ↔ ∀ layer ∈ layers, NoSplit width 0 layer := by
  constructor
  · intro h layer hlayer
    obtain ⟨bytes, mask, hfacts, -, hiff⟩ :=
      layerByteFacts_ok assigned hadd (hbytes layer hlayer)
    obtain ⟨bytes', mask', hfacts', hexact⟩ := h.layer layer hlayer
    cases hfacts.symm.trans hfacts'
    exact hiff.mp hexact
  · intro hsplit
    constructor
    · intro layer hlayer
      obtain ⟨bytes, mask, hfacts, -, hiff⟩ :=
        layerByteFacts_ok assigned hadd (hbytes layer hlayer)
      exact ⟨bytes, mask, hfacts, hiff.mpr (hsplit layer hlayer)⟩
    · obtain ⟨bytes, mask, hfacts, hexact⟩ :=
        packetByteFacts_exact assigned hadd hbytes hsplit
      refine ⟨bytes, mask, hfacts, ?_⟩
      intro i v hmem
      obtain ⟨⟨e, j⟩, hpair, hout⟩ := List.mem_map.mp hmem
      obtain ⟨hzip, hmarked⟩ := List.mem_filter.mp hpair
      obtain ⟨rfl, rfl⟩ := Prod.mk.inj hout
      have hi : mask[j]? = some true := by
        have hget := List.mem_zipIdx_iff_getElem?.mp hzip
        rw [hget]
        exact congrArg some hmarked
      obtain ⟨hlt, -⟩ := List.getElem?_eq_some_iff.mp hi
      have hlen := hexact.length
      exact ⟨rfl, by omega, hexact.marked j hi⟩

end Layers

/-- A field of the packet library, with the value it has and whether the expression
gave it. -/
structure BitField where
  name : String
  size : Nat
  value : Nat
  explicit : Bool
  deriving DecidableEq, Repr

/-- The library's `addfield` of a bit field, most significant bit first. -/
def BitField.addfield (p : PacketBuf) (f : BitField) : PacketBuf :=
  let bitsdone := p.bits + f.size
  let v := (p.rest.map (·.2)).getD 0 * 2 ^ f.size + f.value % 2 ^ f.size
  { bytes := p.bytes ++ (List.range (bitsdone / 8)).map fun j =>
      UInt8.ofNat (v / 2 ^ (bitsdone - 8 * (j + 1)))
    rest := if bitsdone % 8 = 0 then none else some (bitsdone % 8, v % 2 ^ (bitsdone % 8)) }

theorem emitsCompleted_bitField : EmitsCompleted BitField.addfield BitField.size := by
  constructor
  · rintro p f b ⟨hlen, hbits⟩
    constructor
    · simp only [BitField.addfield, List.length_append, List.length_map, List.length_range, hlen,
        hbits]
      omega
    · unfold PacketBuf.bits at hbits ⊢
      simp only [BitField.addfield, PacketBuf.bits, hbits]
      split
      · simp
        omega
      · simp
  · intro p f
    by_cases hzero : (p.bits + f.size) % 8 = 0
    · have hrest : (BitField.addfield p f).rest = none := if_pos hzero
      simp [PacketBuf.isBytes, PacketBuf.bits, hrest]
    · have hrest : (BitField.addfield p f).rest = some ((p.bits + f.size) % 8, _) := if_neg hzero
      unfold PacketBuf.isBytes
      simpa [PacketBuf.bits, hrest] using hzero

/-- The start of an IPv6 header of which only the next header was given. -/
def ipv6Header : List BitField :=
  [⟨"version", 4, 6, false⟩, ⟨"tc", 8, 0, false⟩, ⟨"fl", 20, 0, false⟩, ⟨"plen", 16, 0, false⟩,
   ⟨"nh", 8, 58, true⟩, ⟨"hlim", 8, 64, false⟩]

/-- The traffic class completes a byte and leaves four bits over, so the mask is one byte
short and the low byte of the payload length is fixed in place of the next header. -/
theorem ipv6_mask_short :
    ∃ bytes mask, layerByteFacts BitField.explicit BitField.addfield ipv6Header =
        .ok (bytes, mask) ∧ bytes.length = 8 ∧ mask.length = 7 ∧
      (5, some 0) ∈ pktBytes bytes mask ∧
      FieldAt BitField.size ipv6Header 47 ⟨"plen", 16, 0, false⟩ := by
  refine ⟨_, _, rfl, rfl, rfl, by decide, ?_⟩
  exact ⟨ipv6Header.take 3, ipv6Header.drop 4, rfl, by decide, by decide⟩

/-- An IPv4 header with bit fields, of which the version was not given, before the ports
of UDP. -/
def ipUdpLayers : List (List BitField) :=
  [[⟨"version", 4, 4, false⟩, ⟨"ihl", 4, 5, true⟩, ⟨"tos", 8, 0, true⟩, ⟨"flags", 3, 1, true⟩,
      ⟨"frag", 13, 7, true⟩],
    [⟨"sport", 16, 53, true⟩, ⟨"dport", 16, 53, false⟩]]

/-- The first byte, which the header length shares with the version, stays open. -/
theorem packet_mask_exact_iff_udp :
    PacketExact BitField.explicit BitField.addfield BitField.size ipUdpLayers ∧
      (packetByteFacts BitField.explicit BitField.addfield ipUdpLayers).map
          (fun r => pktBytes r.1 r.2) =
        .ok [(1, some 0), (2, some 0x20), (3, some 7), (4, some 0), (5, some 53)] := by
  have hbytes : ∀ layer ∈ ipUdpLayers, bitsOf BitField.size layer % 8 = 0 := by
    decide
  have hsplit : ∀ layer ∈ ipUdpLayers, NoSplit BitField.size 0 layer := by
    simp [ipUdpLayers, NoSplit]
  exact ⟨(packet_mask_exact_iff _ _ _ emitsCompleted_bitField ipUdpLayers hbytes).mpr hsplit, rfl⟩

end Hornet
