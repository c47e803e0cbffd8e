import Hornet.Lib.Patch
import Hornet.Lib.PyText

/-!
Byte strings in hex, two digits a byte, and the number that such a text is read as: the
first byte is the most significant.
-/

namespace Hornet.Lib.PyStr

/-- The two digits of a byte. -/
def hexPair (b : BitVec 8) : List Char :=
  [Nat.digitChar (b.toNat / 16), Nat.digitChar (b.toNat % 16)]

def hexDigits (bs : List (BitVec 8)) : List Char := bs.flatMap hexPair

/-- `"0x" + bs.hex()`. -/
def hexText (bs : List (BitVec 8)) : String := String.ofList ('0' :: 'x' :: hexDigits bs)

theorem digitOf_digitChar {d : Nat} (h : d < 16) : digitOf 16 d.digitChar = some d := by
  have hall : ∀ d < 16, digitOf 16 (Nat.digitChar d) = some d := by decide
  exact hall d h

theorem digitChar_ne {d : Nat} (h : d < 16) : d.digitChar ≠ '_' := by
  have hall : ∀ d < 16, Nat.digitChar d ≠ '_' := by decide
  exact hall d h

/-- A digit is no space, and it stands for itself. -/
theorem digitChar_plain {d : Nat} (h : d < 16) : isSpace d.digitChar = false ∧
    isAsciiSpace d.digitChar = false ∧ toAscii d.digitChar = d.digitChar := by
  have hall : ∀ d < 16, isSpace (Nat.digitChar d) = false ∧
      isAsciiSpace (Nat.digitChar d) = false ∧ toAscii (Nat.digitChar d) = Nat.digitChar d := by
    decide
  exact hall d h

theorem halves_lt (b : BitVec 8) : b.toNat / 16 < 16 ∧ b.toNat % 16 < 16 := by
  have hb : b.toNat < 256 := b.isLt
  omega

theorem mem_hexDigits {bs : List (BitVec 8)} {c : Char} (hc : c ∈ hexDigits bs) :
    ∃ d < 16, c = Nat.digitChar d := by
  obtain ⟨b, -, hb⟩ := List.mem_flatMap.mp hc
  obtain ⟨hhigh, hlow⟩ := halves_lt b
  rcases List.mem_cons.mp hb with rfl | hb
  · exact ⟨_, hhigh, rfl⟩
  · exact ⟨_, hlow, List.mem_singleton.mp hb⟩

theorem digitsFrom_digitChar {d acc : Nat} (h : d < 16) (cs : List Char) :
    digitsFrom 16 acc (d.digitChar :: cs) = digitsFrom 16 (acc * 16 + d) cs := by
  rw [digitsFrom.eq_3 _ _ _ _ fun c' cs' hc => absurd hc (digitChar_ne h), digitOf_digitChar h]
  rfl

theorem digitsFrom_hexDigits (bs : List (BitVec 8)) (acc : Nat) :
    digitsFrom 16 acc (hexDigits bs) = some (2 ^ (8 * bs.length) * acc + joinNat bs.reverse) := by
  induction bs generalizing acc with
  | nil => simp [hexDigits, digitsFrom, joinNat]
  | cons b bs ih =>
      obtain ⟨hhigh, hlow⟩ := halves_lt b
      have hcons : hexDigits (b :: bs) =
          Nat.digitChar (b.toNat / 16) :: Nat.digitChar (b.toNat % 16) :: hexDigits bs := rfl
      have hbyte : (acc * 16 + b.toNat / 16) * 16 + b.toNat % 16 = 256 * acc + b.toNat := by omega
      have hpow : 2 ^ (8 * (bs.length + 1)) = 2 ^ (8 * bs.length) * 256 := by
        rw [Nat.mul_add, Nat.pow_add]
      have hlast : joinNat [b] = b.toNat := by simp [joinNat]
      rw [hcons, digitsFrom_digitChar hhigh, digitsFrom_digitChar hlow, hbyte, ih,
        List.reverse_cons, joinNat_append, List.length_reverse, List.length_cons, hpow, hlast,
        Nat.mul_add, Nat.mul_assoc]
      congr 1
      omega

theorem digits_hexDigits {bs : List (BitVec 8)} (hne : bs ≠ []) :
    digits 16 (hexDigits bs) = some (joinNat bs.reverse) := by
  have hzero : digits 16 (hexDigits bs) = digitsFrom 16 0 (hexDigits bs) := by
    cases bs with
    | nil => exact absurd rfl hne
    | cons b bs =>
        obtain ⟨hhigh, -⟩ := halves_lt b
        have hcons : hexDigits (b :: bs) =
            Nat.digitChar (b.toNat / 16) :: Nat.digitChar (b.toNat % 16) :: hexDigits bs := rfl
        rw [hcons, digitsFrom_digitChar hhigh, digits, digitOf_digitChar hhigh, Nat.zero_mul,
          Nat.zero_add]
        rfl
  rw [hzero, digitsFrom_hexDigits, Nat.mul_zero, Nat.zero_add]

section Text

variable {bs : List (BitVec 8)}

theorem toList_hexText (bs : List (BitVec 8)) : (hexText bs).toList = '0' :: 'x' :: hexDigits bs :=
  String.toList_ofList

theorem strip_hexText (bs : List (BitVec 8)) :
    strip (hexText bs).toList = '0' :: 'x' :: hexDigits bs := by
  rw [toList_hexText]
  apply stripBy_of_forall
  intro c hc
  rcases List.mem_cons.mp hc with rfl | hc
  · decide
  rcases List.mem_cons.mp hc with rfl | hc
  · decide
  · obtain ⟨d, hd, rfl⟩ := mem_hexDigits hc
    exact (digitChar_plain hd).1

/-- A byte string is read from its hex text, the first byte as the most significant. -/
theorem int16_hexDigits (hne : bs ≠ []) :
    int16 ('0' :: 'x' :: hexDigits bs) = some (joinNat bs.reverse : Int) := by
  have hdigits : (hexDigits bs).map toAscii = hexDigits bs := by
    apply (List.map_congr_left _).trans (List.map_id _)
    intro c hc
    obtain ⟨d, hd, rfl⟩ := mem_hexDigits hc
    exact (digitChar_plain hd).2.2
  have hascii : ('0' :: 'x' :: hexDigits bs).map toAscii = '0' :: 'x' :: hexDigits bs := by
    rw [List.map_cons, List.map_cons, hdigits]
    rfl
  have hstrip : stripBy isAsciiSpace ('0' :: 'x' :: hexDigits bs) = '0' :: 'x' :: hexDigits bs := by
    apply stripBy_of_forall
    intro c hc
    rcases List.mem_cons.mp hc with rfl | hc
    · decide
    rcases List.mem_cons.mp hc with rfl | hc
    · decide
    · obtain ⟨d, hd, rfl⟩ := mem_hexDigits hc
      exact (digitChar_plain hd).2.1
  have hdrop : dropHexPrefix ('0' :: 'x' :: hexDigits bs) = hexDigits bs := by
    cases bs with
    | nil => rfl
    | cons b bs =>
        obtain ⟨hhigh, -⟩ := halves_lt b
        have hcons : hexDigits (b :: bs) =
            Nat.digitChar (b.toNat / 16) :: Nat.digitChar (b.toNat % 16) :: hexDigits bs := rfl
        have hfirst := digitChar_ne hhigh
        rw [hcons]
        unfold dropHexPrefix
        split <;> simp_all
  unfold int16
  rw [hascii, hstrip]
  show (digits 16 (dropHexPrefix ('0' :: 'x' :: hexDigits bs))).map Int.ofNat = _
  rw [hdrop, digits_hexDigits hne]
  rfl

end Text

end Hornet.Lib.PyStr
