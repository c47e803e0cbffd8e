import Hornet.Track.Stack

/-!
The tracked stack where some slots hold what has no term, such as a pointer. A store of
eight bytes replaces a slot; a smaller one keeps what it covers under a mask, and with it
the residue of the pointer. The bytes that the program stored are known all the same.
-/

namespace Hornet

open Smt

section Residue

variable {maps : List MapInfo} (R : Option (Reads maps)) (blk : Option Nat) (st : Z3State maps)
  (m : ZModel)

/-- The lowering of the expression fails. -/
def HasNoTerm (e : Expr) : Prop := ∃ err, exprToZ3 R blk st e = .error err

/-- The stack where the slots in `stale` hold what has no term, and the others the words of
the bytes. -/
structure MixedStack (b : Block) (mem : StackBytes) (stale : Nat → Bool) : Prop where
  stored : ∀ a v, mem a = some v → a < 0 ∧ ∃ o, (b.stk[slotOf a]?).join = some o
  word : ∀ (i : Nat) o, stale i = false → (b.stk[i]?).join = some o →
    ∃ x, StandsFor R blk st m o.val x ∧
      ∀ j : Nat, j < 8 → ∀ v, mem (-8 * ((i : Int) + 1) + j) = some v → x.extractLsb' (8 * j) 8 = v
  residue : ∀ i, stale i = true → ∃ o, (b.stk[i]?).join = some o ∧ HasNoTerm R blk st o.val

/-- A naturally aligned store to the stack. The stored value is a word, or it has no term. -/
structure StackStore where
  idx : Nat
  addr : Int
  size : Nat
  value : Obj
  word : Option (BitVec 64)
  isSize : isStoreSize size
  aligned : addr % size = 0
  below : addr < 0
  holds : match word with
    | some x => StandsFor R blk st m value.val x
    | none => HasNoTerm R blk st value.val

variable {R blk st m}

namespace StackStore

/-- The tracker's step for a store. -/
def step (b : Block) (s : StackStore R blk st m) : Except TrackError Block :=
  { b with idx := s.idx }.stkStore s.addr s.size (some s.value)

/-- The bytes after a store; those of a pointer are not known. -/
def bytes (s : StackStore R blk st m) (mem : StackBytes) : StackBytes :=
  match s.word with
  | some x => mem.store s.addr s.size x
  | none => fun a => if s.addr ≤ a ∧ a < s.addr + s.size then none else mem a

/-- The slots without a term after a store. -/
def stale (s : StackStore R blk st m) (slots : Nat → Bool) : Nat → Bool := fun i =>
  if i = slotOf s.addr then s.word.isNone || (decide (s.size < 8) && slots i) else slots i

end StackStore

theorem noTerm_of_dst {op : AluOp} {dst : Expr} {src : Option Expr} {offset : Int} {size : AluSize}
    {idx : Int} (h : HasNoTerm R blk st dst) :
    HasNoTerm R blk st (.binary op (some dst) src offset size idx) := by
  obtain ⟨err, herr⟩ := h
  refine ⟨err, ?_⟩
  unfold exprToZ3
  rw [someToZ3, herr]
  rfl

theorem noTerm_of_src {op : AluOp} {dst src : Expr} {offset : Int} {size : AluSize} {idx : Int}
    (h : HasNoTerm R blk st src) :
    HasNoTerm R blk st (.binary op (some dst) (some src) offset size idx) := by
  obtain ⟨err, herr⟩ := h
  unfold HasNoTerm exprToZ3
  cases hdst : someToZ3 R blk st (some dst) with
  | error err' => exact ⟨err', rfl⟩
  | ok d =>
      refine ⟨err, ?_⟩
      rw [someToZ3, herr]
      rfl

theorem noTerm_stored {value : Expr} (h : HasNoTerm R blk st value) (idx : Int) (off size : Nat) :
    HasNoTerm R blk st (storedExpr idx off size value) := by
  have hmasked : HasNoTerm R blk st (if size < 8 then
      .binary .AND (some value) (some (.num (2 ^ (8 * size) - 1) 8 (-1))) 0 .b8 idx else value) := by
    split
    · exact noTerm_of_dst h
    · exact h
  unfold storedExpr
  dsimp only
  split
  · exact noTerm_of_dst hmasked
  · exact hmasked

/-- The slot after a store of what has no term, or a small store into a slot without one. -/
theorem noTerm_storedSlot {value : Obj} {old : Option Obj} {off size : Nat} (idx : Nat)
    (h : HasNoTerm R blk st value.val ∨
      (size < 8 ∧ ∃ o, old = some o ∧ HasNoTerm R blk st o.val)) :
    HasNoTerm R blk st (storedSlot idx off size value old).val := by
  unfold storedSlot
  dsimp only
  rcases h with h | ⟨hsmall, o, rfl, ho⟩
  · have hnew : HasNoTerm R blk st (if (decide (size < 8) || decide (off ≠ 0)) = true then
        (⟨.instr idx 1, storedExpr idx off size value.val⟩ : Obj) else value).val := by
      split
      · exact noTerm_stored h idx off size
      · exact h
    cases old with
    | none => exact hnew
    | some o =>
        dsimp only
        split
        · exact hnew
        · exact noTerm_of_src (noTerm_stored h idx off size)
  · have hpart : ¬(decide (off = 0) && decide (size ≥ 8)) = true := by
      have hlt : ¬size ≥ 8 := by omega
      simp [hlt]
    dsimp only
    rw [if_neg hpart]
    exact noTerm_of_dst (noTerm_of_dst ho)

/-! ## The slots that have terms -/

/-- The block without the slots in `stale`. -/
def Block.cleared (b : Block) (stale : Nat → Bool) : Block :=
  { b with stk := b.stk.zipIdx.map fun x => if stale x.2 then none else x.1 }

def StackBytes.cleared (mem : StackBytes) (stale : Nat → Bool) : StackBytes := fun a =>
  if stale (slotOf a) then none else mem a

theorem length_cleared (b : Block) (stale : Nat → Bool) :
    (b.cleared stale).stk.length = b.stk.length := by
  simp [Block.cleared]

theorem cleared_join (b : Block) (stale : Nat → Bool) (i : Nat) :
    ((b.cleared stale).stk[i]?).join = if stale i then none else (b.stk[i]?).join := by
  unfold Block.cleared
  rw [List.getElem?_map, List.getElem?_zipIdx]
  cases b.stk[i]? with
  | none => simp
  | some o =>
      rw [Option.map_some, Option.map_some, Nat.zero_add]
      split <;> rfl

variable {b : Block} {mem : StackBytes} {stale : Nat → Bool}

/-- The slot of a byte of a slot. -/
theorem slotOf_byte (i : Nat) {j : Nat} (hj : j < 8) : slotOf (-8 * ((i : Int) + 1) + j) = i := by
  unfold slotOf
  omega

theorem stackWords_cleared (h : MixedStack R blk st m b mem stale) :
    StackWords (StandsFor R blk st m) (b.cleared stale) (mem.cleared stale) := by
  constructor
  · intro a v ha
    unfold StackBytes.cleared at ha
    split at ha
    · cases ha
    · rename_i hclean
      obtain ⟨hneg, o, ho⟩ := h.stored a v ha
      refine ⟨hneg, o, ?_⟩
      rw [cleared_join, if_neg hclean, ho]
  · intro i o ho
    rw [cleared_join] at ho
    split at ho
    · cases ho
    · rename_i hclean
      obtain ⟨x, hx, hbytes⟩ := h.word i o (by simpa using hclean) ho
      refine ⟨x, hx, fun j hj v hv => hbytes j hj v ?_⟩
      unfold StackBytes.cleared at hv
      rw [slotOf_byte i hj, if_neg hclean] at hv
      exact hv

/-! ## Stores -/

/-- The addresses of a store are in its slot. -/
theorem slotOf_range {addr a : Int} {size : Nat} (hfits : (addr % 8).toNat + size ≤ 8)
    (hneg : addr < 0) (ha : addr ≤ a ∧ a < addr + size) : slotOf a = slotOf addr := by
  unfold slotOf
  omega

/-- A store of a word into a slot that has a term, or over the whole of one. -/
theorem word_stored (h : MixedStack R blk st m b mem stale) {addr : Int} {size : Nat}
    (hsize : isStoreSize size) (haligned : addr % size = 0) (hneg : addr < 0) {value : Obj}
    {x : BitVec 64} (hv : StandsFor R blk st m value.val x)
    (hclean : stale (slotOf addr) = false ∨ size = 8) :
    ∃ y, StandsFor R blk st m
        (storedSlot b.idx (addr % 8).toNat size value ((b.stk[slotOf addr]?).join)).val y ∧
      ∀ j : Nat, j < 8 → ∀ v, mem.store addr size x (-8 * ((slotOf addr : Int) + 1) + j) = some v →
        y.extractLsb' (8 * j) 8 = v := by
  obtain ⟨b', hrun, hholds⟩ := stackWords_store isWord_standsFor (stackWords_cleared h) hsize haligned
    hneg hv
  obtain ⟨hfits, -, -⟩ := aligned_store hsize haligned hneg
  rw [stkStore_eq hneg] at hrun
  cases hrun
  have hold : storedSlot (b.cleared stale).idx (addr % 8).toNat size value
      (((b.cleared stale).stk[slotOf addr]?).join) =
      storedSlot b.idx (addr % 8).toNat size value ((b.stk[slotOf addr]?).join) := by
    rcases hclean with hclean | rfl
    · rw [cleared_join, hclean]
      rfl
    · have hzero : (addr % 8).toNat = 0 := by omega
      rw [hzero, cleared_join]
      split
      · cases (b.stk[slotOf addr]?).join <;> rfl
      · rfl
  obtain ⟨y, hy, hbytes⟩ := hholds.word (slotOf addr) _ ((set_join _ _).trans (if_pos rfl))
  rw [hold] at hy
  refine ⟨y, hy, fun j hj v hmem => hbytes j hj v ?_⟩
  unfold StackBytes.store at hmem ⊢
  split at hmem
  · rename_i hrange
    rw [if_pos hrange]
    exact hmem
  · rename_i hrange
    rw [if_neg hrange]
    unfold StackBytes.cleared
    rw [slotOf_byte _ hj]
    rcases hclean with hclean | rfl
    · rw [hclean]
      exact hmem
    · have hcast := slotOf_cast hneg
      omega

/-- The slots are all that matters of a block. -/
theorem MixedStack.of_stk (h : MixedStack R blk st m b mem stale) {c : Block} (hstk : c.stk = b.stk) :
    MixedStack R blk st m c mem stale := by
  constructor <;> rw [hstk]
  · exact h.stored
  · exact h.word
  · exact h.residue

/-- One store keeps the slots, the bytes and the residues in step. -/
theorem mixedStack_step (h : MixedStack R blk st m b mem stale) (s : StackStore R blk st m) :
    ∃ b', s.step b = .ok b' ∧ MixedStack R blk st m b' (s.bytes mem) (s.stale stale) := by
  obtain ⟨idx, addr, size, value, word, hsize, haligned, hneg, hholds⟩ := s
  refine ⟨_, stkStore_eq hneg size value, ?_⟩
  obtain ⟨hfits, -, hend⟩ := aligned_store hsize haligned hneg
  have hidx : MixedStack R blk st m { b with idx := idx } mem stale := h.of_stk rfl
  constructor
  · intro a v ha
    dsimp only
    rw [set_join]
    have hmem : (addr ≤ a ∧ a < addr + size) ∨ mem a = some v := by
      unfold StackStore.bytes at ha
      dsimp only at ha
      by_cases hrange : addr ≤ a ∧ a < addr + size
      · exact .inl hrange
      · cases word with
        | none => exact .inr ((if_neg hrange).symm.trans ha)
        | some x => exact .inr ((if_neg hrange).symm.trans ha)
    rcases hmem with hrange | hmem
    · have hslot := slotOf_range hfits hneg hrange
      exact ⟨by omega, _, if_pos hslot⟩
    · obtain ⟨ha', o, ho⟩ := h.stored a v hmem
      refine ⟨ha', ?_⟩
      split
      · exact ⟨_, rfl⟩
      · exact ⟨o, ho⟩
  · intro i o hclean ho
    dsimp only at ho
    rw [set_join] at ho
    unfold StackStore.stale at hclean
    dsimp only at hclean
    split at ho
    · rename_i hslot
      subst hslot
      rw [if_pos rfl] at hclean
      obtain rfl := Option.some.inj ho
      cases word with
      | none => cases hclean
      | some x =>
          apply word_stored hidx hsize haligned hneg hholds
          rcases hsize with rfl | rfl | rfl | rfl
          case inr.inr.inr => exact .inr rfl
          all_goals exact .inl hclean
    · rename_i hslot
      rw [if_neg hslot] at hclean
      obtain ⟨x, hx, hbytes⟩ := h.word i o hclean ho
      refine ⟨x, hx, fun j hj v hv => hbytes j hj v ?_⟩
      have hout : ¬(addr ≤ -8 * ((i : Int) + 1) + j ∧ -8 * ((i : Int) + 1) + j < addr + size) := by
        intro hrange
        exact hslot ((slotOf_byte i hj).symm.trans (slotOf_range hfits hneg hrange))
      cases word with
      | none => exact (if_neg hout).symm.trans hv
      | some x => exact (if_neg hout).symm.trans hv
  · intro i hstale
    dsimp only
    rw [set_join]
    unfold StackStore.stale at hstale
    dsimp only at hstale
    split at hstale
    · rename_i hslot
      subst hslot
      refine ⟨_, if_pos rfl, noTerm_storedSlot idx ?_⟩
      cases word with
      | none => exact .inl hholds
      | some x =>
          obtain ⟨hsmall, hold⟩ := Bool.and_eq_true_iff.mp hstale
          exact .inr ⟨of_decide_eq_true hsmall, h.residue _ hold⟩
    · rename_i hslot
      rw [if_neg hslot]
      exact h.residue i hstale

/-- The bytes that a list of stores leaves known. -/
def knownBytes (stores : List (StackStore R blk st m)) (mem : StackBytes) : StackBytes :=
  stores.foldl (fun mem s => s.bytes mem) mem

/-- The slots without a term that a list of stores leaves. -/
def staleSlots (stores : List (StackStore R blk st m)) (slots : Nat → Bool) : Nat → Bool :=
  stores.foldl (fun slots s => s.stale slots) slots

theorem mixedStack_run (stores : List (StackStore R blk st m))
    (h : MixedStack R blk st m b mem stale) :
    ∃ b', stores.foldlM (fun b s => s.step b) b = .ok b' ∧
      MixedStack R blk st m b' (knownBytes stores mem) (staleSlots stores stale) := by
  induction stores generalizing b mem stale with
  | nil => exact ⟨b, rfl, h⟩
  | cons s stores ih =>
      obtain ⟨b₁, hstep, hmixed⟩ := mixedStack_step h s
      obtain ⟨b', hrun, hmixed'⟩ := ih hmixed
      refine ⟨b', ?_, hmixed'⟩
      rw [List.foldlM_cons, hstep]
      exact hrun

/-! ## Loads -/

/-- The slots that a load joins are slots of its bytes. -/
theorem slot_of_chunk {addr : Int} {size i : Nat} (hsize : 0 < size) (hneg : addr < 0)
    (hi : i < ((addr % 8).toNat + size + 7) / 8) (hin : (0 : Int) ≤ (slotOf addr : Int) - i) :
    ∃ q < size, slotOf (addr + (q : Nat)) = ((slotOf addr : Int) - i).toNat := by
  have hcast := slotOf_cast hneg
  refine ⟨8 * i - (addr % 8).toNat, by omega, ?_⟩
  unfold slotOf at hin hcast ⊢
  omega

/-- A load of known bytes in slots with terms does not see the others. -/
theorem stkLoad_cleared (h : MixedStack R blk st m b mem stale) {addr : Int} {size : Nat}
    (hsize : 0 < size) (hstored : ∀ i < size, (mem (addr + (i : Nat))).isSome)
    (hclean : ∀ q < size, stale (slotOf (addr + (q : Nat))) = false) :
    (b.cleared stale).stkLoad addr size = b.stkLoad addr size := by
  obtain ⟨v, hv⟩ := Option.isSome_iff_exists.mp (hstored 0 hsize)
  have hstart : addr + ((0 : Nat) : Int) = addr := Int.add_zero addr
  obtain ⟨hneg, -⟩ := h.stored _ v hv
  rw [hstart] at hneg
  have hfirst : stale (slotOf addr) = false := by
    have hzero := hclean 0 hsize
    rwa [hstart] at hzero
  have hcast := slotOf_cast hneg
  have hindex : (b.cleared stale).stkIndex (slotOf addr : Int) = b.stkIndex (slotOf addr : Int) := by
    unfold Block.stkIndex
    rw [length_cleared]
  unfold Block.stkLoad
  dsimp only
  rw [hcast, hindex]
  split
  · apply congrArg Except.ok
    have hchunks : ∀ i ∈ List.range (((addr % 8).toNat + size + 7) / 8),
        (if 0 ≤ (slotOf addr : Int) - i then
          ((((b.cleared stale).stk[((slotOf addr : Int) - i).toNat]?).join).map (·.val)) else none) =
        if 0 ≤ (slotOf addr : Int) - i then
          (((b.stk[((slotOf addr : Int) - i).toNat]?).join).map (·.val)) else none := by
      intro i hi
      split
      · rename_i hin
        obtain ⟨q, hq, hslot⟩ := slot_of_chunk hsize hneg (List.mem_range.mp hi) hin
        rw [cleared_join, ← hslot, hclean q hq]
        rfl
      · rfl
    rw [List.map_congr_left hchunks]
    rfl
  · cases hat : b.stkIndex (slotOf addr : Int) with
    | none => rfl
    | some i =>
        have hi : i = slotOf addr := by
          unfold Block.stkIndex at hat
          simp at hat
          exact hat.2.symm
        subst hi
        dsimp only
        rw [cleared_join, hfirst]
        rfl

/-- A byte sequence with a slot without a term. -/
theorem noTerm_chunks {chunks : List (Option Expr)} {e : Expr} (he : some e ∈ chunks)
    (h : HasNoTerm R blk st e) : ∃ err, chunksToZ3 R blk st chunks = .error err := by
  induction chunks with
  | nil => cases he
  | cons c chunks ih =>
      rcases List.mem_cons.mp he with rfl | he
      · obtain ⟨err, herr⟩ := h
        refine ⟨err, ?_⟩
        unfold chunksToZ3
        rw [herr]
        rfl
      · obtain ⟨err, herr⟩ := ih he
        cases c with
        | none =>
            refine ⟨err, ?_⟩
            unfold chunksToZ3
            rw [herr]
            rfl
        | some c =>
            unfold chunksToZ3
            cases exprToZ3 R blk st c with
            | error err' => exact ⟨err', rfl⟩
            | ok t =>
                refine ⟨err, ?_⟩
                rw [herr]
                rfl

theorem noTerm_byteSeq {chunks : List (Option Expr)} {e : Expr} (he : some e ∈ chunks)
    (h : HasNoTerm R blk st e) (size off : Nat) :
    HasNoTerm R blk st (.byteSeq chunks size off) := by
  obtain ⟨err, herr⟩ := noTerm_chunks he h
  refine ⟨err, ?_⟩
  unfold exprToZ3
  rw [herr]
  rfl

/-- A load that takes a byte of a slot without a term has none. -/
theorem stkLoad_residue (h : MixedStack R blk st m b mem stale) {addr : Int} {size : Nat}
    (hstored : ∀ i < size, (mem (addr + (i : Nat))).isSome) {q : Nat} (hq : q < size)
    (hstale : stale (slotOf (addr + (q : Nat))) = true) :
    ∃ o, b.stkLoad addr size = .ok o ∧ HasNoTerm R blk st o.val := by
  obtain ⟨v, hv⟩ := Option.isSome_iff_exists.mp (hstored q hq)
  obtain ⟨hbelow, -⟩ := h.stored _ v hv
  obtain ⟨o, ho, hnone⟩ := h.residue _ hstale
  have hneg : addr < 0 := by omega
  have hcast := slotOf_cast hneg
  have hcast' := slotOf_cast hbelow
  unfold Block.stkLoad
  dsimp only
  rw [hcast]
  split
  · refine ⟨_, rfl, noTerm_byteSeq (e := o.val) ?_ hnone size _⟩
    apply List.mem_map.mpr
    refine ⟨((addr % 8).toNat + q) / 8, List.mem_range.mpr (by omega), ?_⟩
    have hin : 0 ≤ (slotOf addr : Int) - ((((addr % 8).toNat + q) / 8 : Nat) : Int) := by omega
    have hslot : ((slotOf addr : Int) - ((((addr % 8).toNat + q) / 8 : Nat) : Int)).toNat =
        slotOf (addr + (q : Nat)) := by omega
    rw [if_pos hin, hslot, ho]
    rfl
  · rename_i hwithin
    have hsame : slotOf (addr + (q : Nat)) = slotOf addr := by omega
    rw [hsame] at ho
    have hindex : b.stkIndex (slotOf addr : Int) = some (slotOf addr) := by
      have hlt : slotOf addr < b.stk.length := by
        by_contra hge
        rw [List.getElem?_eq_none (by omega)] at ho
        cases ho
      simp [Block.stkIndex, hlt]
    rw [hindex]
    dsimp only
    rw [ho]
    split
    · exact ⟨_, rfl, noTerm_byteSeq (List.mem_singleton.mpr rfl) hnone size _⟩
    · dsimp only
      split
      · exact ⟨o, rfl, hnone⟩
      · exact ⟨_, rfl, noTerm_of_dst hnone⟩

/-- A load of known bytes has a term exactly if none of their slots is without one, and
then its low bytes are these. -/
theorem stkLoad_mixed (h : MixedStack R blk st m b mem stale) {addr : Int} {size : Nat}
    (hsize : 0 < size) (hstored : ∀ i < size, (mem (addr + (i : Nat))).isSome) :
    ∃ o, b.stkLoad addr size = .ok o ∧
      ((∃ q < size, stale (slotOf (addr + (q : Nat))) = true) → HasNoTerm R blk st o.val) ∧
      ((∀ q < size, stale (slotOf (addr + (q : Nat))) = false) →
        ∃ t, exprToZ3 R blk st o.val = .ok t ∧
          t.toNat m % 2 ^ (8 * size) = mem.load addr size) := by
  by_cases hclean : ∀ q < size, stale (slotOf (addr + (q : Nat))) = false
  · have hbytes : ∀ i < size, mem.cleared stale (addr + (i : Nat)) = mem (addr + (i : Nat)) := by
      intro i hi
      unfold StackBytes.cleared
      rw [hclean i hi]
      rfl
    obtain ⟨o, t, ho, ht, hval, -⟩ := stkLoad_words (stackWords_cleared h) hsize fun i hi => by
      rw [hbytes i hi]
      exact hstored i hi
    rw [stkLoad_cleared h hsize hstored hclean] at ho
    refine ⟨o, ho, ?_, fun _ => ⟨t, ht, hval.trans ?_⟩⟩
    · rintro ⟨q, hq, hstale⟩
      rw [hclean q hq] at hstale
      cases hstale
    · unfold StackBytes.load
      congr 1
      apply List.map_congr_left
      intro i hi
      rw [hbytes i (List.mem_range.mp hi)]
  · obtain ⟨q, hq, hstale⟩ : ∃ q < size, stale (slotOf (addr + (q : Nat))) = true := by
      simpa using hclean
    obtain ⟨o, ho, hnone⟩ := stkLoad_residue h hstored hq hstale
    exact ⟨o, ho, fun _ => hnone, fun hall => absurd hall hclean⟩

end Residue

end Hornet
