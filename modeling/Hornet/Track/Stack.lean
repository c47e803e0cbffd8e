import Hornet.Lib.Patch
import Hornet.Lib.Fold
import Hornet.Arith.Refine
import Hornet.Track.Block

/-!
The tracked stack as a memory of bytes. A slot is a word of eight bytes whose value is
an expression; stores put masked and shifted parts into it, loads take them out again
or join the words of several slots.
-/

namespace Hornet

open Smt

/-- The bytes of the stack that have been stored, by address. -/
abbrev StackBytes := Int → Option (BitVec 8)

/-- The bytes after a store of the `size` low bytes of `x`. -/
def StackBytes.store (mem : StackBytes) (addr : Int) (size : Nat) (x : BitVec 64) : StackBytes :=
  fun a => if addr ≤ a ∧ a < addr + size then some (x.extractLsb' (8 * (a - addr).toNat) 8) else mem a

/-- The little-endian number that the `size` bytes from `addr` on make up. -/
def StackBytes.load (mem : StackBytes) (addr : Int) (size : Nat) : Nat :=
  Lib.joinNat ((List.range size).map fun (i : Nat) => (mem (addr + i)).getD 0#8)

section Values

variable {maps : List MapInfo} (R : Option (Reads maps)) (blk : Option Nat) (st : Z3State maps)
  (m : ZModel)

/-- The word that an expression of a slot stands for, whose term fits its declared size. -/
structure HoldsWord (e : Expr) (x : BitVec 64) : Prop where
  lowers : ∃ t, exprToZ3 R blk st e = .ok t ∧ t.toNat m < 2 ^ (8 * e.size) ∧
    BitVec.ofNat 64 (t.toNat m) = x

/-- The word that an expression stands for, whatever its declared size. -/
def StandsFor (e : Expr) (x : BitVec 64) : Prop :=
  ∃ t, exprToZ3 R blk st e = .ok t ∧ BitVec.ofNat 64 (t.toNat m) = x

/-- The word of an expression that is known to have one. -/
def wordOf (e : Expr) : BitVec 64 :=
  match exprToZ3 R blk st e with
  | .ok t => BitVec.ofNat 64 (t.toNat m)
  | .error _ => 0#64

/-- The slot of an address. -/
def slotOf (addr : Int) : Nat := (-(addr / 8) - 1).toNat

/-- The slots of `b` hold the bytes of `mem`. -/
structure StackHolds (b : Block) (mem : StackBytes) : Prop where
  stored : ∀ a v, mem a = some v → a < 0 ∧ ∃ o, (b.stk[slotOf a]?).join = some o
  word : ∀ (i : Nat) o, (b.stk[i]?).join = some o → ∃ x, HoldsWord R blk st m o.val x ∧
    ∀ j : Nat, j < 8 → ∀ v, mem (-8 * ((i : Int) + 1) + j) = some v →
      x.extractLsb' (8 * j) 8 = v

/-- The slots of `b` hold the bytes of `mem`, where `W` says which word an expression is. -/
structure StackWords (W : Expr → BitVec 64 → Prop) (b : Block) (mem : StackBytes) : Prop where
  stored : ∀ a v, mem a = some v → a < 0 ∧ ∃ o, (b.stk[slotOf a]?).join = some o
  word : ∀ (i : Nat) o, (b.stk[i]?).join = some o → ∃ x, W o.val x ∧
    ∀ j : Nat, j < 8 → ∀ v, mem (-8 * ((i : Int) + 1) + j) = some v →
      x.extractLsb' (8 * j) 8 = v

/-- What counts as the word of an expression: a word that it stands for, and every one that
fits. -/
structure IsWord (W : Expr → BitVec 64 → Prop) : Prop where
  standsFor : ∀ e x, W e x → StandsFor R blk st m e x
  holds : ∀ e x, HoldsWord R blk st m e x → W e x

variable {R blk st m}

theorem HoldsWord.standsFor {e : Expr} {x : BitVec 64} (h : HoldsWord R blk st m e x) :
    StandsFor R blk st m e x := by
  obtain ⟨t, ht, -, hx⟩ := h.lowers
  exact ⟨t, ht, hx⟩

theorem isWord_holdsWord : IsWord R blk st m (HoldsWord R blk st m) :=
  ⟨fun _ _ h => h.standsFor, fun _ _ h => h⟩

theorem isWord_standsFor : IsWord R blk st m (StandsFor R blk st m) :=
  ⟨fun _ _ h => h, fun _ _ h => h.standsFor⟩

theorem StandsFor.wordOf_eq {e : Expr} {x : BitVec 64} (h : StandsFor R blk st m e x) :
    wordOf R blk st m e = x := by
  obtain ⟨t, ht, hx⟩ := h
  simp only [wordOf, ht, hx]

/-- A 64-bit operation on slots. -/
theorem holdsWord_binary {op : AluOp} (hop : op.isBinary) {d s : Expr} {td ts : ZBv}
    (hd : exprToZ3 R blk st d = .ok td) (hs : exprToZ3 R blk st s = .ok ts) (idx : Int) :
    HoldsWord R blk st m (.binary op (some d) (some s) 0 .b8 idx)
      (Isa.binary op false (BitVec.ofNat 64 (td.toNat m)) (BitVec.ofNat 64 (ts.toNat m))) := by
  obtain ⟨t, ht, -, hval⟩ := aluBinary_b8 m hop 0 td ts
  refine ⟨⟨t, (exprToZ3_binary hd hs 0 .b8 idx).trans ht, ?_, ?_⟩⟩
  · rw [hval]
    exact BitVec.isLt _
  · rw [hval, BitVec.ofNat_toNat, BitVec.setWidth_eq]
    rfl

/-- The term of a constant. -/
theorem exprToZ3_num (n : Int) (size : Nat) (idx : Int) :
    exprToZ3 R blk st (.num n size idx) = .ok ⟨size * 8, bvVal n (size * 8)⟩ := rfl

/-- The low bytes of a word, cut out with a mask. -/
theorem and_mask {size : Nat} (h : size = 1 ∨ size = 2 ∨ size = 4) (x : BitVec 64) :
    x &&& BitVec.ofInt 64 (2 ^ (8 * size) - 1) = (x.setWidth (8 * size)).setWidth 64 := by
  have hmask : BitVec.ofInt 64 (2 ^ (8 * size) - 1) = (BitVec.allOnes (8 * size)).setWidth 64 := by
    rcases h with rfl | rfl | rfl <;> decide
  rw [hmask]
  apply BitVec.eq_of_getLsbD_eq
  intro i hi
  simp only [BitVec.getLsbD_and, BitVec.getLsbD_setWidth, BitVec.getLsbD_allOnes]
  simp [hi, Bool.and_comm]

/-- The mask that keeps the other bytes of a slot. -/
theorem ofInt_keep {size off : Nat} (h : size = 1 ∨ size = 2 ∨ size = 4) (hoff : off + size ≤ 8)
    (haligned : off % size = 0) :
    BitVec.ofInt 64 (Int.xor (2 ^ 64 - 1) ((2 ^ (8 * size) - 1) * 2 ^ (8 * off))) =
      ~~~((BitVec.allOnes (8 * size)).setWidth 64 <<< (8 * off)) := by
  rcases h with rfl | rfl | rfl
  · obtain rfl | rfl | rfl | rfl | rfl | rfl | rfl | rfl :
      off = 0 ∨ off = 1 ∨ off = 2 ∨ off = 3 ∨ off = 4 ∨ off = 5 ∨ off = 6 ∨ off = 7 := by omega
    all_goals decide
  · obtain rfl | rfl | rfl | rfl : off = 0 ∨ off = 2 ∨ off = 4 ∨ off = 6 := by omega
    all_goals decide
  · obtain rfl | rfl : off = 0 ∨ off = 4 := by omega
    all_goals decide

/-- The part that a store puts into its slot. -/
def storedExpr (idx : Int) (off size : Nat) (value : Expr) : Expr :=
  let masked :=
    if size < 8 then .binary .AND (some value) (some (.num (2 ^ (8 * size) - 1) 8 (-1))) 0 .b8 idx
    else value
  if off ≠ 0 then .binary .LSH (some masked) (some (.num (8 * off) 8 (-1))) 0 .b8 idx else masked

theorem holdsWord_stored {size off : Nat} (h : size = 1 ∨ size = 2 ∨ size = 4)
    (hoff : off + size ≤ 8) {value : Expr} {x : BitVec 64} (hv : StandsFor R blk st m value x)
    (idx : Int) :
    HoldsWord R blk st m (storedExpr idx off size value)
      ((x.setWidth (8 * size)).setWidth 64 <<< (8 * off)) := by
  obtain ⟨t, ht, hx⟩ := hv
  have hpartial : size < 8 := by omega
  have hand : AluOp.isBinary .AND = true := rfl
  have hmasked := holdsWord_binary (m := m) hand ht
    (exprToZ3_num (2 ^ (8 * size) - 1) 8 (-1)) idx
  have hword : Isa.binary .AND false (BitVec.ofNat 64 (t.toNat m))
      (BitVec.ofNat 64 (Bv.toNat m ⟨8 * 8, bvVal (2 ^ (8 * size) - 1) (8 * 8)⟩)) =
      (x.setWidth (8 * size)).setWidth 64 := by
    rw [hx, ← and_mask h]
    show x &&& BitVec.ofNat 64 (BitVec.ofInt 64 _).toNat = _
    rw [BitVec.ofNat_toNat, BitVec.setWidth_eq]
  rw [hword] at hmasked
  unfold storedExpr
  rw [if_pos hpartial]
  by_cases hzero : off = 0
  · subst hzero
    simpa using hmasked
  · rw [if_pos hzero]
    obtain ⟨t', ht', -, hx'⟩ := hmasked.lowers
    have hlsh : AluOp.isBinary .LSH = true := rfl
    have hshifted := holdsWord_binary (m := m) hlsh ht' (exprToZ3_num (8 * off) 8 (-1)) idx
    have hamount : (BitVec.ofNat 64 (Bv.toNat m ⟨8 * 8, bvVal (8 * off) (8 * 8)⟩)).toNat % 64 =
        8 * off := by
      show (BitVec.ofNat 64 (BitVec.ofInt 64 (8 * off)).toNat).toNat % 64 = _
      rw [BitVec.ofNat_toNat, BitVec.setWidth_eq, BitVec.toNat_ofInt]
      omega
    have hshift : Isa.binary .LSH false (BitVec.ofNat 64 (t'.toNat m))
        (BitVec.ofNat 64 (Bv.toNat m ⟨8 * 8, bvVal (8 * off) (8 * 8)⟩)) =
        (x.setWidth (8 * size)).setWidth 64 <<< (8 * off) := by
      show _ <<< _ = _
      rw [hamount, hx']
    rw [hshift] at hshifted
    exact hshifted

/-- The word of a slot that may be empty. -/
def slotWord (R : Option (Reads maps)) (blk : Option Nat) (st : Z3State maps) (m : ZModel)
    (o : Option Obj) : BitVec 64 :=
  match o with
  | some o => wordOf R blk st m o.val
  | none => 0#64

/-- The slot after a store. -/
def storedSlot (idx off size : Nat) (value : Obj) (old : Option Obj) : Obj :=
  let e := storedExpr idx off size value.val
  let new : Obj := if size < 8 || off ≠ 0 then ⟨.instr idx 1, e⟩ else value
  match old with
  | some old =>
      if off = 0 && size ≥ 8 then new
      else
        let keep := Int.xor (2 ^ 64 - 1) ((2 ^ (8 * size) - 1) * 2 ^ (8 * off))
        ⟨.instr idx 1, .binary .OR (some (.binary .AND (some old.val) (some (.num keep 8 (-1))) 0 .b8 idx))
          (some e) 0 .b8 idx⟩
  | none => new

/-- The sizes of the stores. -/
def isStoreSize (size : Nat) : Prop := size = 1 ∨ size = 2 ∨ size = 4 ∨ size = 8

variable {W : Expr → BitVec 64 → Prop}

/-- A store patches the word of its slot. -/
theorem word_storedSlot (hW : IsWord R blk st m W) {size off : Nat} (hsize : isStoreSize size)
    (hoff : off + size ≤ 8) (haligned : off % size = 0) {value : Obj} {x : BitVec 64}
    (hv : W value.val x) {old : Option Obj} (hold : ∀ o, old = some o → ∃ y, W o.val y) (idx : Nat) :
    W (storedSlot idx off size value old).val
      (Lib.patch (slotWord R blk st m old) (8 * off) (x.setWidth (8 * size))) := by
  rcases hsize with hsize | hsize | hsize | rfl
  case inr.inr.inr =>
    -- a full store replaces the word
    obtain rfl : off = 0 := by omega
    have hnew : (storedSlot idx 0 8 value old).val = value.val := by
      cases old <;> rfl
    have hpatch : Lib.patch (slotWord R blk st m old) (8 * 0) (x.setWidth (8 * 8)) = x := by
      apply BitVec.eq_of_getLsbD_eq
      intro i hi
      have hin : 8 * 0 ≤ i ∧ i < 8 * 0 + 8 * 8 := by omega
      rw [Lib.getLsbD_patch _ _ _ hi, if_pos hin]
      simp [hi]
    rw [hnew, hpatch]
    exact hv
  all_goals
    have hpart : size = 1 ∨ size = 2 ∨ size = 4 := by omega
    have hlt : (decide (size < 8) || decide (off ≠ 0)) = true := by
      have hsmall : size < 8 := by omega
      simp [hsmall]
    have hnew := holdsWord_stored hpart hoff (hW.standsFor _ _ hv) idx
    cases old with
    | none =>
        have hslot : (storedSlot idx off size value none).val = storedExpr idx off size value.val :=
          congrArg Obj.val (if_pos hlt)
        have hpatch : Lib.patch (slotWord R blk st m none) (8 * off) (x.setWidth (8 * size)) =
            (x.setWidth (8 * size)).setWidth 64 <<< (8 * off) := by
          simp [Lib.patch, slotWord]
        rw [hslot, hpatch]
        exact hW.holds _ _ hnew
    | some o =>
        obtain ⟨y, hy⟩ := hold o rfl
        have hfull : (decide (off = 0) && decide (size ≥ 8)) = false := by
          have hsmall : ¬ size ≥ 8 := by omega
          simp [hsmall]
        obtain ⟨t, ht, hword⟩ := hW.standsFor _ _ hy
        obtain ⟨t', ht', -, hword'⟩ := hnew.lowers
        have hand : AluOp.isBinary .AND = true := rfl
        have hor : AluOp.isBinary .OR = true := rfl
        obtain ⟨k, hk⟩ : ∃ k, k = Int.xor (2 ^ 64 - 1) ((2 ^ (8 * size) - 1) * 2 ^ (8 * off)) :=
          ⟨_, rfl⟩
        have hkept := holdsWord_binary (m := m) hand ht (exprToZ3_num k 8 (-1)) idx
        obtain ⟨t'', ht'', -, hword''⟩ := hkept.lowers
        have hboth := holdsWord_binary (m := m) hor ht'' ht' idx
        have hmask : BitVec.ofNat 64 (Bv.toNat m ⟨8 * 8, bvVal k (8 * 8)⟩) =
            ~~~((BitVec.allOnes (8 * size)).setWidth 64 <<< (8 * off)) := by
          rw [← ofInt_keep hpart hoff haligned, ← hk]
          show BitVec.ofNat 64 (BitVec.ofInt 64 k).toNat = _
          rw [BitVec.ofNat_toNat, BitVec.setWidth_eq]
        have hslot : (storedSlot idx off size value (some o)).val =
            .binary .OR (some (.binary .AND (some o.val) (some (.num k 8 (-1))) 0 .b8 idx))
              (some (storedExpr idx off size value.val)) 0 .b8 idx := by
          unfold storedSlot
          dsimp only
          rw [hfull, hk]
          rfl
        rw [hslot]
        rw [hword'', hword', hword, hmask] at hboth
        have hold' : slotWord R blk st m (some o) = y := (hW.standsFor _ _ hy).wordOf_eq
        rw [hold']
        exact hW.holds _ _ hboth

end Values

section Store

variable {b : Block} {addr : Int}

theorem slotOf_cast (hneg : addr < 0) : -(addr / 8) - 1 = (slotOf addr : Int) := by
  unfold slotOf
  omega

/-- The stack with enough slots for a store. -/
def padded (stk : List (Option Obj)) (slot : Nat) : List (Option Obj) :=
  stk ++ List.replicate (slot + 1 - stk.length) none

theorem padded_length (stk : List (Option Obj)) (slot : Nat) : slot < (padded stk slot).length := by
  rw [padded, List.length_append, List.length_replicate]
  omega

theorem padded_join (stk : List (Option Obj)) (slot i : Nat) :
    ((padded stk slot)[i]?).join = (stk[i]?).join := by
  unfold padded
  by_cases hlt : i < stk.length
  · rw [List.getElem?_append_left hlt]
  · rw [List.getElem?_append_right (by omega), List.getElem?_replicate,
      List.getElem?_eq_none (by omega)]
    split <;> rfl

theorem stkStore_eq (hneg : addr < 0) (size : Nat) (value : Obj) :
    b.stkStore addr size (some value) = .ok { b with
      stk := (padded b.stk (slotOf addr)).set (slotOf addr)
        (some (storedSlot b.idx (addr % 8).toNat size value ((b.stk[slotOf addr]?).join))) } := by
  have hslot := slotOf_cast hneg
  have hcount : ((slotOf addr : Int) + 1 - b.stk.length).toNat = slotOf addr + 1 - b.stk.length := by
    omega
  have hindex : Block.stkIndex { b with stk := padded b.stk (slotOf addr) } (slotOf addr) =
      some (slotOf addr) := by
    have hlt := padded_length b.stk (slotOf addr)
    simp [Block.stkIndex, hlt]
  have hold := padded_join b.stk (slotOf addr) (slotOf addr)
  obtain ⟨off, hoff⟩ : ∃ off, off = (addr % 8).toNat := ⟨_, rfl⟩
  have hpart : (if off ≠ 0 then
      some (.binary .LSH (if size < 8 then
          some (.binary .AND (some value.val) (some (.num (2 ^ (8 * size) - 1) 8 (-1))) 0 .b8 b.idx)
        else some value.val) (some (.num (8 * off) 8 (-1))) 0 .b8 b.idx)
      else if size < 8 then
        some (.binary .AND (some value.val) (some (.num (2 ^ (8 * size) - 1) 8 (-1))) 0 .b8 b.idx)
      else some value.val) = some (storedExpr b.idx off size value.val) := by
    unfold storedExpr
    split <;> split <;> rfl
  have hobj : (if (decide (size < 8) || decide (off ≠ 0)) = true then
      Option.map (fun e => (⟨.instr b.idx 1, e⟩ : Obj)) (some (storedExpr b.idx off size value.val))
      else some value) =
      some (if (decide (size < 8) || decide (off ≠ 0)) = true then
        ⟨.instr b.idx 1, storedExpr b.idx off size value.val⟩ else value) := by
    split <;> rfl
  unfold Block.stkStore
  simp only [Option.map_some]
  rw [← hoff, hpart, hobj, hslot, hcount]
  have hpad : b.stk ++ List.replicate (slotOf addr + 1 - b.stk.length) none =
      padded b.stk (slotOf addr) := rfl
  rw [hpad, hindex]
  dsimp only
  rw [hold]
  cases (b.stk[slotOf addr]?).join with
  | none => rfl
  | some old =>
      dsimp only [storedSlot]
      split <;> rfl

theorem set_join {stk : List (Option Obj)} {slot : Nat} (o : Obj) (i : Nat) :
    ((((padded stk slot).set slot (some o))[i]?).join) =
      if i = slot then some o else (stk[i]?).join := by
  have hlt := padded_length stk slot
  by_cases hi : i = slot
  · subst hi
    rw [if_pos rfl, List.getElem?_set_self hlt]
    rfl
  · rw [if_neg hi, List.getElem?_set_ne (Ne.symm hi), padded_join]

/-- The bytes of a patched word. -/
theorem byte_patch {off size : Nat} (x y : BitVec 64) {j : Nat} (hj : j < 8) :
    (Lib.patch y (8 * off) (x.setWidth (8 * size))).extractLsb' (8 * j) 8 =
      if off ≤ j ∧ j < off + size then x.extractLsb' (8 * (j - off)) 8 else y.extractLsb' (8 * j) 8 := by
  apply BitVec.eq_of_getLsbD_eq
  intro i hi
  have hplace : 8 * j + i < 64 := by omega
  rw [BitVec.getLsbD_extractLsb', Lib.getLsbD_patch _ _ _ hplace]
  by_cases hin : off ≤ j ∧ j < off + size
  · have hbits : 8 * off ≤ 8 * j + i ∧ 8 * j + i < 8 * off + 8 * size := by omega
    have hsub : 8 * j + i - 8 * off = 8 * (j - off) + i := by omega
    have hwidth : 8 * (j - off) + i < 8 * size := by omega
    rw [if_pos hin, if_pos hbits, hsub, BitVec.getLsbD_setWidth, BitVec.getLsbD_extractLsb']
    simp [hwidth]
  · have hbits : ¬(8 * off ≤ 8 * j + i ∧ 8 * j + i < 8 * off + 8 * size) := by omega
    rw [if_neg hin, if_neg hbits, BitVec.getLsbD_extractLsb']

end Store

section Invariant

variable {maps : List MapInfo} {R : Option (Reads maps)} {blk : Option Nat} {st : Z3State maps}
  {m : ZModel} {b : Block} {mem : StackBytes} {W : Expr → BitVec 64 → Prop}

/-- Where an aligned store lies. -/
theorem aligned_store {addr : Int} {size : Nat} (hsize : isStoreSize size)
    (haligned : addr % size = 0) (hneg : addr < 0) :
    (addr % 8).toNat + size ≤ 8 ∧ (addr % 8).toNat % size = 0 ∧ addr + size ≤ 0 := by
  rcases hsize with rfl | rfl | rfl | rfl <;> omega

/-- One aligned store keeps the slots and the bytes in step. -/
theorem stackWords_store (hW : IsWord R blk st m W) (h : StackWords W b mem) {addr : Int} {size : Nat}
    (hsize : isStoreSize size) (haligned : addr % size = 0) (hneg : addr < 0) {value : Obj}
    {x : BitVec 64} (hv : W value.val x) :
    ∃ b', b.stkStore addr size (some value) = .ok b' ∧ StackWords W b' (mem.store addr size x) := by
  refine ⟨_, stkStore_eq hneg size value, ?_⟩
  obtain ⟨hfits, hoff, hend⟩ := aligned_store hsize haligned hneg
  have hsizePos : 0 < size := by
    rcases hsize with rfl | rfl | rfl | rfl <;> decide
  have hwords : ∀ o, (b.stk[slotOf addr]?).join = some o → ∃ y, W o.val y := by
    intro o ho
    obtain ⟨y, hy, -⟩ := h.word _ o ho
    exact ⟨y, hy⟩
  have hslotWord := word_storedSlot hW hsize hfits hoff hv hwords b.idx
  constructor
  · intro a v ha
    unfold StackBytes.store at ha
    split at ha
    · rename_i hrange
      have hsame : slotOf a = slotOf addr := by
        unfold slotOf
        omega
      have hbelow : a < 0 := by omega
      exact ⟨hbelow, _, (set_join _ _).trans (if_pos hsame)⟩
    · obtain ⟨hnegative, o, ho⟩ := h.stored a v ha
      refine ⟨hnegative, ?_⟩
      by_cases hslot : slotOf a = slotOf addr
      · exact ⟨_, (set_join _ _).trans (if_pos hslot)⟩
      · exact ⟨o, (set_join _ _).trans ((if_neg hslot).trans ho)⟩
  · intro i o ho
    have hjoin := (set_join _ i).symm.trans ho
    by_cases hi : i = slotOf addr
    · rw [if_pos hi] at hjoin
      obtain rfl := Option.some.inj hjoin
      refine ⟨_, hslotWord, ?_⟩
      intro j hj v hmem
      have hcast := slotOf_cast hneg
      rw [byte_patch _ _ hj]
      unfold StackBytes.store at hmem
      split at hmem
      · rename_i hrange
        have hin : (addr % 8).toNat ≤ j ∧ j < (addr % 8).toNat + size := by omega
        have hdist : (-8 * ((i : Int) + 1) + j - addr).toNat = j - (addr % 8).toNat := by omega
        rw [hdist] at hmem
        rw [if_pos hin]
        exact Option.some.inj hmem
      · rename_i hrange
        have hout : ¬((addr % 8).toNat ≤ j ∧ j < (addr % 8).toNat + size) := by omega
        obtain ⟨-, o, ho⟩ := h.stored _ v hmem
        have hsame : slotOf (-8 * ((i : Int) + 1) + j) = slotOf addr := by
          unfold slotOf
          omega
        rw [hsame] at ho
        obtain ⟨y, hy, hbytes⟩ := h.word _ o ho
        have hword : slotWord R blk st m ((b.stk[slotOf addr]?).join) = y := by
          rw [ho]
          exact (hW.standsFor _ _ hy).wordOf_eq
        rw [if_neg hout, hword]
        rw [hi] at hmem
        exact hbytes j hj v hmem
    · rw [if_neg hi] at hjoin
      obtain ⟨y, hy, hbytes⟩ := h.word i o hjoin
      refine ⟨y, hy, ?_⟩
      intro j hj v hmem
      have hcast := slotOf_cast hneg
      have hout : ¬(addr ≤ -8 * ((i : Int) + 1) + j ∧ -8 * ((i : Int) + 1) + j < addr + size) := by
        omega
      unfold StackBytes.store at hmem
      rw [if_neg hout] at hmem
      exact hbytes j hj v hmem

theorem StackHolds.words (h : StackHolds R blk st m b mem) :
    StackWords (HoldsWord R blk st m) b mem := ⟨h.stored, h.word⟩

theorem stackHolds_store (h : StackHolds R blk st m b mem) {addr : Int} {size : Nat}
    (hsize : isStoreSize size) (haligned : addr % size = 0) (hneg : addr < 0) {value : Obj}
    {x : BitVec 64} (hv : HoldsWord R blk st m value.val x) :
    ∃ b', b.stkStore addr size (some value) = .ok b' ∧
      StackHolds R blk st m b' (mem.store addr size x) := by
  obtain ⟨b', hrun, hwords⟩ := stackWords_store isWord_holdsWord h.words hsize haligned hneg hv
  exact ⟨b', hrun, hwords.stored, hwords.word⟩

/-- The words of the slots, whatever their declared sizes. -/
theorem StackWords.standsFor (hW : IsWord R blk st m W) (h : StackWords W b mem) :
    StackWords (StandsFor R blk st m) b mem := by
  refine ⟨h.stored, fun i o ho => ?_⟩
  obtain ⟨x, hx, hbytes⟩ := h.word i o ho
  exact ⟨x, hW.standsFor _ _ hx, hbytes⟩

/-- The bits of the number that a load should give. -/
theorem testBit_load (addr : Int) (size p : Nat) :
    (mem.load addr size).testBit p =
      (decide (p < 8 * size) && ((mem (addr + (p / 8 : Nat))).getD 0#8).getLsbD (p % 8)) := by
  rw [StackBytes.load, Lib.testBit_joinNat (by decide)]
  by_cases hp : p < 8 * size
  · have hindex : p / 8 < size := by omega
    have hget : ((List.range size).map fun (i : Nat) => (mem (addr + i)).getD 0#8).getD (p / 8) 0#8 =
        (mem (addr + (p / 8 : Nat))).getD 0#8 := by
      simp [List.getD_eq_getElem?_getD, hindex]
    rw [hget]
    simp [hp]
  · have hindex : ¬ p / 8 < size := by omega
    have hget : ((List.range size).map fun (i : Nat) => (mem (addr + i)).getD 0#8).getD (p / 8) 0#8 =
        0#8 := by
      simp [List.getD_eq_getElem?_getD, hindex]
    rw [hget]
    simp [hp]

/-- A stored byte in the word of its slot. -/
theorem word_bit (h : StackWords (StandsFor R blk st m) b mem) {a : Int} {v : BitVec 8} (hv : mem a = some v)
    {k : Nat} (hk : k < 8) :
    (slotWord R blk st m ((b.stk[slotOf a]?).join)).getLsbD (8 * (a % 8).toNat + k) =
      v.getLsbD k := by
  obtain ⟨hneg, o, ho⟩ := h.stored a v hv
  obtain ⟨x, hx, hbytes⟩ := h.word _ o ho
  have hcast := slotOf_cast hneg
  have haddr : -8 * ((slotOf a : Int) + 1) + (a % 8).toNat = a := by omega
  have hbyte := hbytes (a % 8).toNat (by omega) v (by rw [haddr]; exact hv)
  have hword : slotWord R blk st m ((b.stk[slotOf a]?).join) = x := by
    rw [ho]
    exact hx.wordOf_eq
  rw [hword, ← hbyte, BitVec.getLsbD_extractLsb']
  simp [hk]

/-- The word of a chunk of a byte sequence. -/
def chunkWord (R : Option (Reads maps)) (blk : Option Nat) (st : Z3State maps) (m : ZModel) :
    Option Expr → BitVec 64
  | none => 0#64
  | some e => wordOf R blk st m e

theorem chunkWord_map (o : Option Obj) :
    chunkWord R blk st m (o.map (·.val)) = slotWord R blk st m o := by
  cases o <;> rfl

/-- The cells of a byte sequence are the words of its chunks. -/
theorem chunksToZ3_ok {chunks : List (Option Expr)}
    (h : ∀ e, some e ∈ chunks → ∃ t, exprToZ3 R blk st e = .ok t) :
    ∃ cells, chunksToZ3 R blk st chunks = .ok cells ∧ cells.length = chunks.length ∧
      (∀ c ∈ cells, c.size = 64) ∧
      cellsNat m cells = Lib.joinNat (chunks.map (chunkWord R blk st m)) := by
  induction chunks with
  | nil => exact ⟨[], rfl, rfl, nofun, rfl⟩
  | cons c chunks ih =>
      obtain ⟨cells, hcells, hlen, hsizes, hnat⟩ := ih fun e he => h e (List.mem_cons_of_mem _ he)
      cases c with
      | none =>
          refine ⟨⟨64, bvVal 0 64⟩ :: cells, ?_, by simp [hlen], ?_, ?_⟩
          · unfold chunksToZ3
            rw [hcells]
            rfl
          · exact List.forall_mem_cons.mpr ⟨rfl, hsizes⟩
          · rw [cellsNat, hnat]
            rfl
      | some e =>
          obtain ⟨t, ht⟩ := h e List.mem_cons_self
          refine ⟨⟨64, resize t 64⟩ :: cells, ?_, by simp [hlen], ?_, ?_⟩
          · unfold chunksToZ3
            rw [ht, hcells]
            rfl
          · exact List.forall_mem_cons.mpr ⟨rfl, hsizes⟩
          · have hword : Bv.toNat m ⟨64, resize t 64⟩ = (wordOf R blk st m e).toNat := by
              simp only [wordOf, ht]
              exact congrArg BitVec.toNat (eval_resize m t 64)
            rw [cellsNat, hnat, hword]
            rfl

/-- The value of a byte sequence. -/
theorem byteSeq_ok {chunks : List (Option Expr)}
    (h : ∀ e, some e ∈ chunks → ∃ t, exprToZ3 R blk st e = .ok t) (hne : chunks ≠ [])
    (size : Nat) {off : Nat} (hoff : off < 8) :
    ∃ t, exprToZ3 R blk st (.byteSeq chunks size off) = .ok t ∧
      t.toNat m = Lib.joinNat (chunks.map (chunkWord R blk st m)) / 2 ^ (off * 8) %
        2 ^ (size * 8) := by
  obtain ⟨cells, hcells, hlen, hsizes, hnat⟩ := chunksToZ3_ok (m := m) h
  obtain ⟨c, cs, rfl⟩ : ∃ c cs, cells = c :: cs := by
    cases cells with
    | nil => exact absurd (List.length_eq_zero_iff.mp hlen.symm) hne
    | cons c cs => exact ⟨c, cs, rfl⟩
  have hwhole : (concatLE c cs).toNat m = Lib.joinNat (chunks.map (chunkWord R blk st m)) := by
    rw [toNat_concatLE, hnat]
  have hwide : 64 ≤ (concatLE c cs).size := by
    rw [size_concatLE, List.map_cons, List.sum_cons, hsizes c List.mem_cons_self]
    omega
  let shifted : ZBv :=
    if off = 0 then concatLE c cs
    else ⟨(concatLE c cs).size, .bin .lshr (concatLE c cs).term (bvVal (off * 8) (concatLE c cs).size)⟩
  have hshifted : shifted.toNat m =
      Lib.joinNat (chunks.map (chunkWord R blk st m)) / 2 ^ (off * 8) := by
    by_cases hzero : off = 0
    · have hsame : shifted = concatLE c cs := if_pos hzero
      rw [hsame, hwhole, hzero]
      simp
    · have hpart : shifted = ⟨(concatLE c cs).size,
          .bin .lshr (concatLE c cs).term (bvVal (off * 8) (concatLE c cs).size)⟩ := if_neg hzero
      have hamount : (BitVec.ofInt (concatLE c cs).size (off * 8)).toNat = off * 8 := by
        have hpow : 2 ^ 64 ≤ 2 ^ (concatLE c cs).size := Nat.pow_le_pow_right (by decide) hwide
        have hcast : ((off : Int) * 8) = ((off * 8 : Nat) : Int) := by push_cast; rfl
        rw [hcast, BitVec.ofInt_natCast, BitVec.toNat_ofNat, Nat.mod_eq_of_lt (by omega)]
      rw [hpart, Bv.toNat_mk, Term.eval_bin, eval_bvVal]
      show ((concatLE c cs).term.eval m >>> BitVec.ofInt _ _).toNat = _
      rw [BitVec.ushiftRight_eq', BitVec.toNat_ushiftRight, hamount, Nat.shiftRight_eq_div_pow]
      exact congrArg (· / 2 ^ (off * 8)) hwhole
  refine ⟨⟨size * 8, resize shifted (size * 8)⟩, ?_, ?_⟩
  · unfold exprToZ3
    rw [hcells]
    rfl
  · have hval : Bv.toNat m ⟨size * 8, resize shifted (size * 8)⟩ =
        shifted.toNat m % 2 ^ (size * 8) := toNat_resize m shifted (size * 8)
    rw [hval, hshifted]

/-- The bit of the slots that bit `p` of a load at `addr` is. -/
def loadBit (R : Option (Reads maps)) (blk : Option Nat) (st : Z3State maps) (m : ZModel) (b : Block)
    (addr : Int) (p : Nat) : Bool :=
  (slotWord R blk st m ((b.stk[slotOf (addr + (p / 8 : Nat))]?).join)).getLsbD
    (8 * ((addr + (p / 8 : Nat)) % 8).toNat + p % 8)

/-- A number with the bits of the slots is the one that the load should give. -/
theorem eq_load (h : StackWords (StandsFor R blk st m) b mem) {addr : Int} {size n : Nat}
    (hstored : ∀ i < size, (mem (addr + (i : Nat))).isSome)
    (hbits : ∀ p, n.testBit p = (decide (p < 8 * size) && loadBit R blk st m b addr p)) :
    n = mem.load addr size := by
  apply Nat.eq_of_testBit_eq
  intro p
  rw [hbits, testBit_load]
  by_cases hp : p < 8 * size
  · obtain ⟨v, hv⟩ := Option.isSome_iff_exists.mp (hstored (p / 8) (by omega))
    have hbit := word_bit h hv (Nat.mod_lt p (by decide : 0 < 8))
    rw [loadBit, hbit, hv]
    rfl
  · simp [hp]

/-- A load that takes a slot apart or joins several. -/
theorem byteSeq_load (h : StackWords (StandsFor R blk st m) b mem) {addr : Int} {size : Nat}
    {chunks : List (Option Expr)} (hne : chunks ≠ [])
    (hchunks : ∀ e, some e ∈ chunks → ∃ (i : Nat) (o : Obj), (b.stk[i]?).join = some o ∧ o.val = e)
    (hwords : ∀ q, q < size → chunkWord R blk st m (chunks.getD (((addr % 8).toNat + q) / 8) none) =
      slotWord R blk st m ((b.stk[slotOf (addr + (q : Nat))]?).join))
    (hstored : ∀ i < size, (mem (addr + (i : Nat))).isSome) :
    ∃ t, exprToZ3 R blk st (.byteSeq chunks size (addr % 8).toNat) = .ok t ∧
      t.toNat m = mem.load addr size := by
  have hlowers : ∀ e, some e ∈ chunks → ∃ t, exprToZ3 R blk st e = .ok t := by
    intro e he
    obtain ⟨i, o, ho, rfl⟩ := hchunks e he
    obtain ⟨x, ⟨t, ht, -⟩, -⟩ := h.word i o ho
    exact ⟨t, ht⟩
  have hoff : (addr % 8).toNat < 8 := by omega
  obtain ⟨t, ht, hval⟩ := byteSeq_ok (m := m) hlowers hne size hoff
  refine ⟨t, ht, ?_⟩
  apply eq_load h hstored
  intro p
  rw [hval, Nat.testBit_mod_two_pow, Nat.testBit_div_two_pow, Lib.testBit_joinNat (by decide)]
  have hcomm : size * 8 = 8 * size := Nat.mul_comm size 8
  rw [hcomm]
  by_cases hp : p < 8 * size
  · have hindex : (p + (addr % 8).toNat * 8) / 64 = ((addr % 8).toNat + p / 8) / 8 := by omega
    have hplace : (p + (addr % 8).toNat * 8) % 64 =
        8 * ((addr + (p / 8 : Nat)) % 8).toNat + p % 8 := by omega
    have hmap : (chunks.map (chunkWord R blk st m)).getD (((addr % 8).toNat + p / 8) / 8) 0#64 =
        chunkWord R blk st m (chunks.getD (((addr % 8).toNat + p / 8) / 8) none) := by
      rw [List.getD_eq_getElem?_getD, List.getD_eq_getElem?_getD, List.getElem?_map]
      cases chunks[((addr % 8).toNat + p / 8) / 8]? <;> rfl
    rw [hindex, hplace, hmap, hwords (p / 8) (by omega), loadBit]
  · simp [hp]

/-- A load of the lowest bytes of a slot. -/
theorem slot_load (h : StackWords (StandsFor R blk st m) b mem) {addr : Int} {size n : Nat}
    (hzero : (addr % 8).toNat = 0) (hsmall : size ≤ 8) {o : Obj}
    (ho : (b.stk[slotOf addr]?).join = some o) {x : BitVec 64} (hx : StandsFor R blk st m o.val x)
    (hstored : ∀ i < size, (mem (addr + (i : Nat))).isSome)
    (hbits : ∀ p, n.testBit p = (decide (p < 8 * size) && x.getLsbD p)) :
    n = mem.load addr size := by
  apply eq_load h hstored
  intro p
  rw [hbits]
  by_cases hp : p < 8 * size
  · have hslot : slotOf (addr + (p / 8 : Nat)) = slotOf addr := by
      unfold slotOf
      omega
    have hplace : 8 * ((addr + (p / 8 : Nat)) % 8).toNat + p % 8 = p := by omega
    have hword : slotWord R blk st m ((b.stk[slotOf addr]?).join) = x := by
      rw [ho]
      exact hx.wordOf_eq
    rw [loadBit, hslot, hplace, hword]
  · simp [hp]

/-- The mask of a load. -/
theorem testBit_mask (size p : Nat) :
    (BitVec.ofNat 64 (Bv.toNat m ⟨size * 8, bvVal (2 ^ (8 * size) - 1) (size * 8)⟩)).getLsbD p =
      (decide (p < 64) && decide (p < 8 * size)) := by
  have hpos : 0 < 2 ^ (8 * size) := Nat.pow_pos (by decide)
  have hcast : ((2 : Int) ^ (8 * size) - 1) = ((2 ^ (8 * size) - 1 : Nat) : Int) := by
    push_cast [hpos]
    rfl
  have hval : Bv.toNat m ⟨size * 8, bvVal (2 ^ (8 * size) - 1) (size * 8)⟩ = 2 ^ (8 * size) - 1 := by
    show (BitVec.ofInt (size * 8) (2 ^ (8 * size) - 1)).toNat = _
    rw [hcast, BitVec.ofInt_natCast, BitVec.toNat_ofNat, Nat.mul_comm size 8,
      Nat.mod_eq_of_lt (by omega)]
  rw [hval, BitVec.getLsbD_ofNat, Nat.testBit_two_pow_sub_one]

/-- The slots from the one of `addr` upwards. -/
def loadChunks (b : Block) (slotIdx : Int) (n : Nat) : List (Option Expr) :=
  (List.range n).map fun (i : Nat) =>
    if 0 ≤ slotIdx - i then ((b.stk[(slotIdx - i).toNat]?).join).map (·.val) else none

/-- A load from several slots. -/
theorem spanning_load (h : StackWords (StandsFor R blk st m) b mem) {addr : Int} {size : Nat} (hsize : 0 < size)
    (hneg : addr < 0) (hstored : ∀ i < size, (mem (addr + (i : Nat))).isSome) :
    ∃ t, exprToZ3 R blk st (.byteSeq (loadChunks b (slotOf addr) (((addr % 8).toNat + size + 7) / 8))
        size (addr % 8).toNat) = .ok t ∧ t.toNat m = mem.load addr size := by
  have hcast := slotOf_cast hneg
  apply byteSeq_load h _ _ _ hstored
  · simp [loadChunks]
    omega
  · intro e he
    obtain ⟨i, -, hi⟩ := List.mem_map.mp he
    split at hi
    · obtain ⟨o, ho, hval⟩ := Option.map_eq_some_iff.mp hi
      exact ⟨_, o, ho, hval⟩
    · cases hi
  · intro q hq
    obtain ⟨v, hv⟩ := Option.isSome_iff_exists.mp (hstored q hq)
    have hbelow := (h.stored _ v hv).1
    have hindex : ((addr % 8).toNat + q) / 8 < ((addr % 8).toNat + size + 7) / 8 := by omega
    have hin : 0 ≤ (slotOf addr : Int) - ((((addr % 8).toNat + q) / 8 : Nat) : Int) := by omega
    have hslot : ((slotOf addr : Int) - ((((addr % 8).toNat + q) / 8 : Nat) : Int)).toNat =
        slotOf (addr + (q : Nat)) := by
      have hcast' := slotOf_cast hbelow
      omega
    rw [loadChunks, List.getD_eq_getElem?_getD, List.getElem?_map, List.getElem?_range hindex,
      Option.map_some, Option.getD_some, if_pos hin, hslot, chunkWord_map]

/-- A load from the middle of one slot. -/
theorem inner_load (h : StackWords (StandsFor R blk st m) b mem) {addr : Int} {size : Nat}
    (hfits : (addr % 8).toNat + size ≤ 8)
    (hstored : ∀ i < size, (mem (addr + (i : Nat))).isSome) :
    ∃ t, exprToZ3 R blk st (.byteSeq [((b.stk[slotOf addr]?).join).map (·.val)] size
        (addr % 8).toNat) = .ok t ∧ t.toNat m = mem.load addr size := by
  apply byteSeq_load h _ _ _ hstored
  · exact List.cons_ne_nil _ _
  · intro e he
    obtain ⟨o, ho, hval⟩ := Option.map_eq_some_iff.mp (List.mem_singleton.mp he).symm
    exact ⟨_, o, ho, hval⟩
  · intro q hq
    have hfirst : ((addr % 8).toNat + q) / 8 = 0 := by omega
    have hslot : slotOf (addr + (q : Nat)) = slotOf addr := by
      unfold slotOf
      omega
    rw [hfirst, hslot]
    exact chunkWord_map _

/-- A slot that is returned as it is: its low bytes are those that are loaded. -/
theorem whole_load (h : StackWords (StandsFor R blk st m) b mem) {addr : Int} {size : Nat}
    (hzero : (addr % 8).toNat = 0) (hsmall : size ≤ 8) {o : Obj}
    (ho : (b.stk[slotOf addr]?).join = some o)
    (hstored : ∀ i < size, (mem (addr + (i : Nat))).isSome) :
    ∃ t, exprToZ3 R blk st o.val = .ok t ∧ t.toNat m % 2 ^ (8 * size) = mem.load addr size := by
  obtain ⟨x, hx, -⟩ := h.word _ o ho
  obtain ⟨t, ht, hword⟩ := hx
  refine ⟨t, ht, slot_load h hzero hsmall ho ⟨t, ht, hword⟩ hstored fun p => ?_⟩
  rw [← hword, BitVec.getLsbD_ofNat, Nat.testBit_mod_two_pow]
  by_cases hp : p < 8 * size
  · have hp64 : p < 64 := by omega
    simp [hp, hp64]
  · simp [hp]

/-- A slot that is cut down with a mask. -/
theorem masked_load (h : StackWords (StandsFor R blk st m) b mem) {addr : Int} {size : Nat}
    (hzero : (addr % 8).toNat = 0) (hsmall : size ≤ 8) {o : Obj}
    (ho : (b.stk[slotOf addr]?).join = some o) (idx : Int)
    (hstored : ∀ i < size, (mem (addr + (i : Nat))).isSome) :
    ∃ t, exprToZ3 R blk st (.binary .AND (some o.val) (some (.num (2 ^ (8 * size) - 1) size (-1)))
        0 .b8 idx) = .ok t ∧ t.toNat m = mem.load addr size := by
  obtain ⟨x, hx, -⟩ := h.word _ o ho
  obtain ⟨t, ht, hword⟩ := hx
  have hand : AluOp.isBinary .AND = true := rfl
  have hmasked := holdsWord_binary (m := m) hand ht
    (exprToZ3_num (2 ^ (8 * size) - 1) size (-1)) idx
  obtain ⟨t', ht', hlt, hword'⟩ := hmasked.lowers
  refine ⟨t', ht', slot_load h hzero hsmall ho ⟨t, ht, hword⟩ hstored fun p => ?_⟩
  have hlt64 : t'.toNat m < 2 ^ 64 := hlt
  have hbit : (t'.toNat m).testBit p = (BitVec.ofNat 64 (t'.toNat m)).getLsbD p := by
    rw [BitVec.getLsbD_ofNat]
    by_cases hp : p < 64
    · simp [hp]
    · have hhigh : (t'.toNat m).testBit p = false :=
        Nat.testBit_lt_two_pow (lt_of_lt_of_le hlt64 (Nat.pow_le_pow_right (by decide) (by omega)))
      simp [hp, hhigh]
  rw [hbit, hword', hword]
  show (x &&& _).getLsbD p = _
  rw [BitVec.getLsbD_and, testBit_mask]
  by_cases hp : p < 8 * size
  · have hp64 : p < 64 := by omega
    simp [hp, hp64]
  · simp [hp]

theorem load_lt (mem : StackBytes) (addr : Int) (size : Nat) :
    mem.load addr size < 2 ^ (8 * size) := by
  have hlt := Lib.joinNat_lt ((List.range size).map fun (i : Nat) => (mem (addr + i)).getD 0#8)
  rwa [List.length_map, List.length_range] at hlt

/-- A load of stored bytes gives a number with these bytes. More bytes than are loaded come
only from a slot that is returned whole. -/
theorem stkLoad_words (h : StackWords (StandsFor R blk st m) b mem) {addr : Int} {size : Nat}
    (hsize : 0 < size) (hstored : ∀ i < size, (mem (addr + (i : Nat))).isSome) :
    ∃ o t, b.stkLoad addr size = .ok o ∧ exprToZ3 R blk st o.val = .ok t ∧
      t.toNat m % 2 ^ (8 * size) = mem.load addr size ∧
      (t.toNat m = mem.load addr size ∨
        (o.val.size ≤ size ∧ ∃ i : Nat, (b.stk[i]?).join = some o)) := by
  have hexact : ∀ {n : Nat}, n = mem.load addr size → n % 2 ^ (8 * size) = mem.load addr size := by
    rintro n rfl
    exact Nat.mod_eq_of_lt (load_lt mem addr size)
  obtain ⟨v, hv⟩ := Option.isSome_iff_exists.mp (hstored 0 hsize)
  obtain ⟨hneg, o, ho⟩ := h.stored _ v hv
  have hstart : addr + ((0 : Nat) : Int) = addr := Int.add_zero addr
  rw [hstart] at hneg ho
  have hcast := slotOf_cast hneg
  unfold Block.stkLoad
  dsimp only
  rw [hcast]
  by_cases hspan : (addr % 8).toNat + size > 8
  · rw [if_pos hspan]
    obtain ⟨t, ht, hval⟩ := spanning_load h hsize hneg hstored
    exact ⟨_, t, rfl, ht, hexact hval, .inl hval⟩
  · rw [if_neg hspan]
    have hindex : b.stkIndex (slotOf addr : Int) = some (slotOf addr) := by
      have hlt : slotOf addr < b.stk.length := by
        by_contra hge
        rw [List.getElem?_eq_none (by omega)] at ho
        cases ho
      simp [Block.stkIndex, hlt]
    rw [hindex]
    dsimp only
    by_cases hoff : (addr % 8).toNat ≠ 0
    · rw [if_pos hoff]
      obtain ⟨t, ht, hval⟩ := inner_load h (by omega) hstored
      exact ⟨_, t, rfl, ht, hexact hval, .inl hval⟩
    · rw [if_neg hoff, ho]
      dsimp only
      have hzero : (addr % 8).toNat = 0 := by omega
      by_cases hwhole : o.val.size ≤ size
      · have hreturn : (o.val.isPTR || decide (o.val.size ≤ size)) = true := by simp [hwhole]
        rw [if_pos hreturn]
        obtain ⟨t, ht, hval⟩ := whole_load h hzero (by omega) ho hstored
        exact ⟨o, t, rfl, ht, hval, .inr ⟨hwhole, _, ho⟩⟩
      · have hscalar : o.val.isPTR = false := by
          obtain ⟨x, ⟨t, ht, -⟩, -⟩ := h.word _ o ho
          cases hval : o.val <;> first | rfl | (rw [hval] at ht; cases ht)
        have hreturn : ¬(o.val.isPTR || decide (o.val.size ≤ size)) = true := by
          simp [hwhole, hscalar]
        rw [if_neg hreturn]
        obtain ⟨t, ht, hval⟩ := masked_load h hzero (by omega) ho b.idx hstored
        exact ⟨_, t, rfl, ht, hexact hval, .inl hval⟩

/-- A load of stored bytes gives the number that they make up. -/
theorem stkLoad_stored (h : StackHolds R blk st m b mem) {addr : Int} {size : Nat}
    (hsize : 0 < size) (hstored : ∀ i < size, (mem (addr + (i : Nat))).isSome) :
    ∃ o t, b.stkLoad addr size = .ok o ∧ exprToZ3 R blk st o.val = .ok t ∧
      t.toNat m = mem.load addr size := by
  obtain ⟨o, t, ho, ht, hmod, hval⟩ :=
    stkLoad_words (h.words.standsFor isWord_holdsWord) hsize hstored
  refine ⟨o, t, ho, ht, ?_⟩
  rcases hval with hval | ⟨hwhole, i, hslot⟩
  · exact hval
  · obtain ⟨x, hx, -⟩ := h.word i o hslot
    obtain ⟨t', ht', hfits, -⟩ := hx.lowers
    obtain rfl := Except.ok.inj (ht.symm.trans ht')
    have hlt : t.toNat m < 2 ^ (8 * size) :=
      lt_of_lt_of_le hfits (Nat.pow_le_pow_right (by decide) (by omega))
    rwa [Nat.mod_eq_of_lt hlt] at hmod

/-- The byte at an address in the words of the slots. -/
def slotByte (R : Option (Reads maps)) (blk : Option Nat) (st : Z3State maps) (m : ZModel) (b : Block)
    (a : Int) : BitVec 8 :=
  (slotWord R blk st m ((b.stk[slotOf a]?).join)).extractLsb' (8 * (a % 8).toNat) 8

/-- A store leaves the bytes outside its range. -/
theorem slotByte_stkStore (h : StackHolds R blk st m b mem) {addr : Int} {size : Nat}
    (hsize : isStoreSize size) (haligned : addr % size = 0) (hneg : addr < 0) {value : Obj}
    {x : BitVec 64} (hv : HoldsWord R blk st m value.val x) {b' : Block}
    (hb : b.stkStore addr size (some value) = .ok b') {a : Int} (ha : a < 0)
    (hout : ¬(addr ≤ a ∧ a < addr + size)) :
    slotByte R blk st m b' a = slotByte R blk st m b a := by
  rw [stkStore_eq hneg size value] at hb
  obtain rfl := Except.ok.inj hb
  obtain ⟨hfits, hoff, hend⟩ := aligned_store hsize haligned hneg
  unfold slotByte
  dsimp only
  rw [set_join]
  split
  · rename_i hslot
    have hcast := slotOf_cast hneg
    have hcast' := slotOf_cast ha
    have hwords : ∀ o, (b.stk[slotOf addr]?).join = some o →
        ∃ y, HoldsWord R blk st m o.val y := by
      intro o ho
      obtain ⟨y, hy, -⟩ := h.word _ o ho
      exact ⟨y, hy⟩
    have hword := (word_storedSlot isWord_holdsWord hsize hfits hoff hv hwords b.idx).standsFor.wordOf_eq
    have hout' : ¬((addr % 8).toNat ≤ (a % 8).toNat ∧
        (a % 8).toNat < (addr % 8).toNat + size) := by omega
    rw [slotWord, hword, byte_patch _ _ (by omega), if_neg hout', hslot]
  · rfl

end Invariant

section Stores

variable {maps : List MapInfo} {R : Option (Reads maps)} {blk : Option Nat} {st : Z3State maps}
  {m : ZModel}

/-- A naturally aligned store of a scalar to the stack, by the instruction at `idx`. -/
structure ScalarStore (R : Option (Reads maps)) (blk : Option Nat) (st : Z3State maps) (m : ZModel) where
  idx : Nat
  addr : Int
  size : Nat
  value : Obj
  word : BitVec 64
  isSize : isStoreSize size
  aligned : addr % size = 0
  below : addr < 0
  holds : HoldsWord R blk st m value.val word

/-- The tracker's step for a store. -/
def ScalarStore.step (b : Block) (s : ScalarStore R blk st m) : Except TrackError Block :=
  { b with idx := s.idx }.stkStore s.addr s.size (some s.value)

/-- The bytes that a list of stores leaves. -/
def storedBytes (stores : List (ScalarStore R blk st m)) (mem : StackBytes) : StackBytes :=
  stores.foldl (fun mem s => mem.store s.addr s.size s.word) mem

/-- The slots do not depend on the instruction that is tracked. -/
theorem StackHolds.at_idx {b : Block} {mem : StackBytes} (h : StackHolds R blk st m b mem) (idx : Nat) :
    StackHolds R blk st m { b with idx := idx } mem :=
  ⟨h.stored, h.word⟩

/-- One store keeps the slots and the bytes in step. -/
theorem stackHolds_step {b : Block} {mem : StackBytes} (h : StackHolds R blk st m b mem)
    (s : ScalarStore R blk st m) :
    ∃ b', s.step b = .ok b' ∧ StackHolds R blk st m b' (mem.store s.addr s.size s.word) :=
  stackHolds_store (h.at_idx s.idx) s.isSize s.aligned s.below s.holds

/-- So does a list of stores. -/
theorem stackHolds_run (stores : List (ScalarStore R blk st m)) {b : Block} {mem : StackBytes}
    (h : StackHolds R blk st m b mem) :
    ∃ b', stores.foldlM (fun b s => s.step b) b = .ok b' ∧
      StackHolds R blk st m b' (storedBytes stores mem) := by
  induction stores generalizing b mem with
  | nil => exact ⟨b, rfl, h⟩
  | cons s stores ih =>
      obtain ⟨b₁, hstep, hholds⟩ := stackHolds_step h s
      obtain ⟨b', hrun, hholds'⟩ := ih hholds
      refine ⟨b', ?_, hholds'⟩
      rw [List.foldlM_cons, hstep]
      exact hrun

/-- Aligned stores of scalars succeed on a stack of scalars. A later load of bytes that have
been stored gives the number of the bytes last stored there, and a further store leaves
the bytes outside its range. -/
theorem stack_round_trip (b : Block)
    (hscalars : ∀ (i : Nat) o, (b.stk[i]?).join = some o → ∃ x, HoldsWord R blk st m o.val x)
    (stores : List (ScalarStore R blk st m)) :
    ∃ b', stores.foldlM (fun b s => s.step b) b = .ok b' ∧
      (∀ (idx : Nat) (addr : Int) (size : Nat), 0 < size →
        (∀ i < size, (storedBytes stores (fun _ => none) (addr + (i : Nat))).isSome) →
        ∃ o t, { b' with idx := idx }.stkLoad addr size = .ok o ∧
          exprToZ3 R blk st o.val = .ok t ∧
          t.toNat m = (storedBytes stores fun _ => none).load addr size) ∧
      ∀ s : ScalarStore R blk st m, ∃ b'', s.step b' = .ok b'' ∧
        ∀ a < 0, ¬(s.addr ≤ a ∧ a < s.addr + s.size) →
          slotByte R blk st m b'' a = slotByte R blk st m b' a := by
  have hstart : StackHolds R blk st m b (fun _ => none) := by
    constructor
    · intro a v ha
      cases ha
    · intro i o ho
      obtain ⟨x, hx⟩ := hscalars i o ho
      exact ⟨x, hx, nofun⟩
  obtain ⟨b', hrun, hholds⟩ := stackHolds_run stores hstart
  refine ⟨b', hrun, ?_, ?_⟩
  · intro idx addr size hsize hstored
    exact stkLoad_stored (hholds.at_idx idx) hsize hstored
  · intro s
    obtain ⟨b'', hstep, -⟩ := stackHolds_step hholds s
    refine ⟨b'', hstep, ?_⟩
    intro a ha hout
    exact slotByte_stkStore (hholds.at_idx s.idx) s.isSize s.aligned s.below s.holds hstep ha hout

/-- The scalar that instruction `idx` leaves for a constant of `size` bytes. -/
def markedWord (idx size value : Nat) : Obj := ⟨.instr idx 1, .num value size (-1)⟩

theorem holdsWord_marked (m : ZModel) {idx size value : Nat} (hfits : value < 2 ^ (8 * size)) :
    HoldsWord none none (makeInitState []) m (markedWord idx size value).val
      (BitVec.ofNat 64 value) := by
  have hbits : 2 ^ (8 * size) = 2 ^ (size * 8) := by rw [Nat.mul_comm]
  have hnat : Bv.toNat m (⟨size * 8, bvVal value (size * 8)⟩ : ZBv) = value := by
    have heval : (bvVal value (size * 8)).eval m = BitVec.ofNat (size * 8) value :=
      BitVec.ofInt_natCast ..
    rw [Bv.toNat, heval, BitVec.toNat_ofNat, Nat.mod_eq_of_lt (hbits ▸ hfits)]
  refine ⟨_, rfl, ?_, ?_⟩
  · rw [hnat]
    exact hfits
  · rw [hnat]

theorem isStoreSize_half : isStoreSize 2 := .inr (.inl rfl)
theorem isStoreSize_word : isStoreSize 4 := .inr (.inr (.inl rfl))
theorem isStoreSize_double : isStoreSize 8 := .inr (.inr (.inr rfl))

/-- Four bytes stored at the top of the stack. -/
def storeMarked (m : ZModel) : ScalarStore none none (makeInitState []) m where
  idx := 3
  addr := -8
  size := 4
  value := markedWord 3 4 0x11223344
  word := 0x11223344#64
  isSize := isStoreSize_word
  aligned := rfl
  below := by decide
  holds := holdsWord_marked m (by decide)

/-- Two bytes stored over the upper half of them. -/
def storeOver (m : ZModel) : ScalarStore none none (makeInitState []) m where
  idx := 4
  addr := -6
  size := 2
  value := markedWord 4 2 0x5566
  word := 0x5566#64
  isSize := isStoreSize_half
  aligned := rfl
  below := by decide
  holds := holdsWord_marked m (by decide)

/-- A word in the slot below. -/
def storeBelow (m : ZModel) : ScalarStore none none (makeInitState []) m where
  idx := 5
  addr := -16
  size := 8
  value := markedWord 5 8 0x0102030405060708
  word := 0x0102030405060708#64
  isSize := isStoreSize_double
  aligned := rfl
  below := by decide
  holds := holdsWord_marked m (by decide)

/-- A load across the overwritten bytes, a load across the two slots, and the bytes that a
further store leaves. -/
theorem stack_round_trip_marked :
    ∃ b', [storeMarked zeroModel, storeOver zeroModel, storeBelow zeroModel].foldlM
        (fun b s => s.step b) ({ num := 0, start := 0, «end» := 0 } : Block) = .ok b' ∧
      (∃ o t, { b' with idx := 6 }.stkLoad (-7) 3 = .ok o ∧
        exprToZ3 none none (makeInitState []) o.val = .ok t ∧ t.toNat zeroModel = 0x556633) ∧
      (∃ o t, { b' with idx := 7 }.stkLoad (-10) 4 = .ok o ∧
        exprToZ3 none none (makeInitState []) o.val = .ok t ∧ t.toNat zeroModel = 0x33440102) ∧
      ∃ b'', (storeOver zeroModel).step b' = .ok b'' ∧
        slotByte none none (makeInitState []) zeroModel b'' (-7) =
          slotByte none none (makeInitState []) zeroModel b' (-7) := by
  obtain ⟨b', hrun, hload, hframe⟩ := stack_round_trip { num := 0, start := 0, «end» := 0 } nofun
    [storeMarked zeroModel, storeOver zeroModel, storeBelow zeroModel]
  obtain ⟨o, t, ho, ht, hval⟩ := hload 6 (-7) 3 (by decide) (by decide)
  obtain ⟨o', t', ho', ht', hval'⟩ := hload 7 (-10) 4 (by decide) (by decide)
  obtain ⟨b'', hstep, hkept⟩ := hframe (storeOver zeroModel)
  refine ⟨b', hrun, ⟨o, t, ho, ht, hval.trans (by decide)⟩,
    ⟨o', t', ho', ht', hval'.trans (by decide)⟩, b'', hstep, hkept (-7) (by decide) (by decide)⟩

end Stores

end Hornet
