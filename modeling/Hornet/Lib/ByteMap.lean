import Hornet.Lib.Patch
import Mathlib.Data.List.OfFn

/-!
Arrays of bytes, and maps whose values are arrays of bytes of one length.
-/

namespace Hornet.Lib

/-- An array of `n` bytes. -/
abbrev Bytes (n : Nat) := Fin n → BitVec 8

namespace Bytes

variable {n s : Nat}

/-- The bytes of a word, the lowest first. -/
def ofWord (w : BitVec (n * 8)) : Bytes n := fun i => w.extractLsb' (i * 8) 8

/-- The `n` low bytes of a number, the lowest first. -/
def ofNat (n v : Nat) : Bytes n := ofWord (BitVec.ofNat (n * 8) v)

/-- The number that the bytes make up. -/
def toNat (b : Bytes n) : Nat := joinNat (List.ofFn b)

/-- The `s` bytes from `off` on. -/
def field (b : Bytes n) (off s : Nat) : Bytes s :=
  fun i => if h : off + i < n then b ⟨off + i, h⟩ else 0#8

/-- The array with the bytes from `off` on replaced by `new`. -/
def splice (b : Bytes n) (off : Nat) (new : Bytes s) : Bytes n :=
  fun i => if h : off ≤ i ∧ i < off + s then new ⟨i - off, by omega⟩ else b i

/-- The array with a number added to the field of `s` bytes at `off`. What is carried
out of the field is lost. -/
def addAt (b : Bytes n) (off : Nat) (addend : Bytes s) : Bytes n :=
  b.splice off (ofNat s ((b.field off s).toNat + addend.toNat))

theorem toNat_ofWord (w : BitVec (n * 8)) : (ofWord w).toNat = w.toNat := by
  apply Nat.eq_of_testBit_eq
  intro p
  rw [toNat, testBit_joinNat (by decide), BitVec.testBit_toNat, List.getD_eq_getElem?_getD,
    List.getElem?_ofFn]
  have hplace : p / 8 * 8 + p % 8 = p := by omega
  by_cases hin : p / 8 < n
  · have hbit : p % 8 < 8 := Nat.mod_lt _ (by decide)
    rw [dif_pos hin, Option.getD_some, ofWord, BitVec.getLsbD_extractLsb']
    simp [hbit, hplace]
  · rw [dif_neg hin, Option.getD_none, BitVec.getLsbD_of_ge w p (by omega)]
    exact BitVec.getLsbD_zero

/-- The bytes of a number that bytes make up. -/
theorem ofNat_joinNat {bs : List (BitVec 8)} (i : Fin n) (hi : (i : Nat) < bs.length) :
    ofNat n (joinNat bs) i = bs[(i : Nat)] := by
  apply BitVec.eq_of_getLsbD_eq
  intro j hj
  have hin : (i : Nat) < n := i.isLt
  have hplace : (i : Nat) * 8 + j < n * 8 := by omega
  have hbyte : ((i : Nat) * 8 + j) / 8 = i := by omega
  have hbit : ((i : Nat) * 8 + j) % 8 = j := by omega
  rw [ofNat, ofWord, BitVec.getLsbD_extractLsb', BitVec.getLsbD_ofNat, testBit_joinNat (by decide),
    hbyte, hbit, List.getD_eq_getElem?_getD, List.getElem?_eq_getElem hi]
  simp [hj, hplace]

theorem ofWord_patch (cur : BitVec (n * 8)) {off : Nat} (v : BitVec (s * 8)) :
    ofWord (patch cur (off * 8) v) = (ofWord cur).splice off (ofWord v) := by
  funext i
  have hi : (i : Nat) < n := i.isLt
  apply BitVec.eq_of_getLsbD_eq
  intro j hj
  have hleft : (ofWord (patch cur (off * 8) v) i).getLsbD j =
      if off * 8 ≤ i * 8 + j ∧ i * 8 + j < off * 8 + s * 8 then
        v.getLsbD (i * 8 + j - off * 8) else cur.getLsbD (i * 8 + j) := by
    rw [ofWord, BitVec.getLsbD_extractLsb', getLsbD_patch _ _ _ (by omega)]
    simp [hj]
  rw [hleft]
  by_cases hin : off ≤ i ∧ (i : Nat) < off + s
  · have hbits : off * 8 ≤ i * 8 + j ∧ i * 8 + j < off * 8 + s * 8 := by omega
    have hplace : i * 8 + j - off * 8 = (i - off) * 8 + j := by omega
    rw [if_pos hbits, splice, dif_pos hin, ofWord, BitVec.getLsbD_extractLsb', hplace]
    simp [hj]
  · have hbits : ¬(off * 8 ≤ i * 8 + j ∧ i * 8 + j < off * 8 + s * 8) := by omega
    rw [if_neg hbits, splice, dif_neg hin, ofWord, BitVec.getLsbD_extractLsb']
    simp [hj]

theorem ofWord_extract (cur : BitVec (n * 8)) {off : Nat} (h : off + s ≤ n) :
    ofWord (cur.extractLsb' (off * 8) (s * 8)) = (ofWord cur).field off s := by
  funext i
  have hi : (i : Nat) < s := i.isLt
  have hin : off + i < n := by omega
  rw [field, dif_pos hin]
  apply BitVec.eq_of_getLsbD_eq
  intro j hj
  have hbit : i * 8 + j < s * 8 := by omega
  have hplace : off * 8 + (i * 8 + j) = (off + i) * 8 + j := by omega
  rw [ofWord, ofWord, BitVec.getLsbD_extractLsb', BitVec.getLsbD_extractLsb',
    BitVec.getLsbD_extractLsb', hplace]
  simp [hj, hbit]

/-- Adding to a field of a word adds to the field of its bytes. -/
theorem ofWord_patch_add (cur : BitVec (n * 8)) {off : Nat} (h : off + s ≤ n)
    (v : BitVec (s * 8)) :
    ofWord (patch cur (off * 8) (cur.extractLsb' (off * 8) (s * 8) + v)) =
      (ofWord cur).addAt off (ofWord v) := by
  have hsum : BitVec.ofNat (s * 8) (((ofWord cur).field off s).toNat + (ofWord v).toNat) =
      cur.extractLsb' (off * 8) (s * 8) + v := by
    rw [← ofWord_extract cur h, toNat_ofWord, toNat_ofWord, BitVec.ofNat_add,
      BitVec.ofNat_toNat, BitVec.ofNat_toNat, BitVec.setWidth_eq, BitVec.setWidth_eq]
  rw [ofWord_patch, addAt, ofNat, hsum]

section Window

variable {d : Nat} (mem : BitVec d → BitVec 8)

/-- The first bytes of an array with addresses of `d` bits. -/
def window (n : Nat) : Bytes n := fun i => mem (BitVec.ofNat d i)

/-- An address below the size of an array that the addresses can tell apart. -/
theorem toNat_sub_ofNat {i t : Nat} (hi : i < 2 ^ d) (hle : t ≤ i) :
    (BitVec.ofNat d i - BitVec.ofNat d t).toNat = i - t := by
  have hsub : (i - t) + t = i := by omega
  have hsum : BitVec.ofNat d i = BitVec.ofNat d (i - t) + BitVec.ofNat d t := by
    rw [← BitVec.ofNat_add, hsub]
  rw [hsum, BitVec.add_sub_cancel, BitVec.toNat_ofNat, Nat.mod_eq_of_lt (by omega)]

theorem window_putBytes (hn : n ≤ 2 ^ d) {t : Nat} (h : t + s ≤ n) (v : BitVec (s * 8)) :
    window (putBytes mem (BitVec.ofNat d t) v) n = (window mem n).splice t (ofWord v) := by
  funext i
  have hi : (i : Nat) < n := i.isLt
  show (if (BitVec.ofNat d i - BitVec.ofNat d t).toNat < s then _ else mem (BitVec.ofNat d i)) = _
  by_cases hle : t ≤ i
  · have hplace := toNat_sub_ofNat (d := d) (i := i) (t := t) (by omega) hle
    by_cases hlt : (i : Nat) < t + s
    · have hin : t ≤ i ∧ (i : Nat) < t + s := ⟨hle, hlt⟩
      rw [hplace, if_pos (by omega), splice, dif_pos hin]
      rfl
    · have hout : ¬(t ≤ i ∧ (i : Nat) < t + s) := fun hin => hlt hin.2
      rw [hplace, if_neg (by omega), splice, dif_neg hout]
      rfl
  · have hout : ¬(t ≤ i ∧ (i : Nat) < t + s) := fun hin => hle hin.1
    have hback : ¬ (BitVec.ofNat d i - BitVec.ofNat d t).toNat < s := by
      obtain rfl | hs := Nat.eq_zero_or_pos s
      · omega
      · have ht : t % 2 ^ d = t := Nat.mod_eq_of_lt (by omega)
        have hi' : i % 2 ^ d = (i : Nat) := Nat.mod_eq_of_lt (by omega)
        rw [BitVec.toNat_sub, BitVec.toNat_ofNat, BitVec.toNat_ofNat, ht, hi',
          Nat.mod_eq_of_lt (by omega)]
        omega
    rw [if_neg hback, splice, dif_neg hout]
    rfl

theorem getBytes_eq_joinNat (a : BitVec d) (k : Nat) :
    getBytes mem a k = joinNat ((List.range k).map fun i => mem (a + BitVec.ofNat d i)) := by
  induction k with
  | zero => rfl
  | succ k ih =>
      rw [List.range_succ, List.map_append, joinNat_append, ← ih, List.length_map,
        List.length_range]
      simp [getBytes, joinNat]

/-- Bytes read from the array are those of its window. -/
theorem getBytes_window {t : Nat} (h : t + s ≤ n) :
    getBytes mem (BitVec.ofNat d t) s = ((window mem n).field t s).toNat := by
  have hbytes : List.ofFn ((window mem n).field t s) =
      (List.range s).map fun i => mem (BitVec.ofNat d t + BitVec.ofNat d i) := by
    apply List.ext_getElem
    · simp
    · intro i h₁ h₂
      have hin : t + i < n := by
        rw [List.length_ofFn] at h₁
        omega
      simp [field, window, hin, BitVec.ofNat_add]
  rw [getBytes_eq_joinNat, toNat, hbytes]

end Window

end Bytes

/-- The flag of an update: whether it may insert a key and whether it may replace one. -/
inductive UpdateFlag where
  | any | noExist | exist
  deriving DecidableEq, Repr

def UpdateFlag.allows : UpdateFlag → Bool → Bool
  | .any, _ => true
  | .noExist, present => !present
  | .exist, present => present

/-- A map from keys to byte arrays. The value of a key stays in place when the key is
deleted: a pointer to it may still be written through. -/
structure ByteMap (K : Type) (n : Nat) where
  present : K → Bool
  value : K → Bytes n

namespace ByteMap

variable {K : Type} [DecidableEq K] {n s : Nat} (c : ByteMap K n) (k : K)

def setValue (v : Bytes n) : ByteMap K n := { c with value := Function.update c.value k v }

def setPresent (p : Bool) : ByteMap K n := { c with present := Function.update c.present k p }

def write (off : Nat) (new : Bytes s) : ByteMap K n := c.setValue k ((c.value k).splice off new)

def atomicAdd (off : Nat) (addend : Bytes s) : ByteMap K n :=
  c.setValue k ((c.value k).addAt off addend)

def update (v : Bytes n) (flag : UpdateFlag) : ByteMap K n :=
  if flag.allows (c.present k) then (c.setPresent k true).setValue k v else c

def delete : ByteMap K n := c.setPresent k false

/-- Storing at a key what is there already. -/
theorem store_self : (c.setPresent k (c.present k)).setValue k (c.value k) = c := by
  simp [setPresent, setValue, Function.update_eq_self]

end ByteMap

end Hornet.Lib
