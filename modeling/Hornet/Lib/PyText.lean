import Hornet.Lib.Json
import Mathlib.Data.List.TakeWhile

/-!
Texts as Python takes them apart: at the first or the last separator, and as numbers whose
base stands in front of them.
-/

namespace Hornet.Lib.PyStr

/-- `s.partition(sep)`: what stands before the first separator, whether there is one, and
what stands behind it. -/
def partition (sep : Char) (cs : List Char) : List Char × Bool × List Char :=
  (cs.takeWhile (· ≠ sep), cs.contains sep, (cs.dropWhile (· ≠ sep)).tail)

/-- `s.rpartition(sep)`: the same at the last separator. Without one the text is last. -/
def rpartition (sep : Char) (cs : List Char) : List Char × Bool × List Char :=
  if cs.contains sep then
    let (last, _, first) := partition sep cs.reverse
    (first.reverse, true, last.reverse)
  else ([], false, cs)

section Parts

variable {sep : Char} {a b cs : List Char}

theorem partition_append (h : sep ∉ a) (b : List Char) :
    partition sep (a ++ sep :: b) = (a, true, b) := by
  have hkeep : ∀ c ∈ a, decide (c ≠ sep) = true := by
    intro c hc
    apply decide_eq_true
    rintro rfl
    exact h hc
  unfold partition
  rw [List.takeWhile_append_of_pos hkeep, List.takeWhile_cons_of_neg (by simp), List.append_nil,
    List.dropWhile_append_of_pos hkeep, List.dropWhile_cons_of_neg (by simp)]
  simp

theorem partition_of_notMem (h : sep ∉ cs) : partition sep cs = (cs, false, []) := by
  have hkeep : ∀ c ∈ cs, decide (c ≠ sep) = true := by
    intro c hc
    apply decide_eq_true
    rintro rfl
    exact h hc
  unfold partition
  rw [List.takeWhile_eq_self_iff.mpr hkeep, List.dropWhile_eq_nil_iff.mpr hkeep]
  simp [h]

theorem notMem_partition : sep ∉ (partition sep cs).1 := by
  intro h
  have hne := List.mem_takeWhile_imp h
  simp at hne

theorem rpartition_append (h : sep ∉ b) (a : List Char) :
    rpartition sep (a ++ sep :: b) = (a, true, b) := by
  have hmem : (a ++ sep :: b).contains sep = true := by simp
  have hreverse : (a ++ sep :: b).reverse = b.reverse ++ sep :: a.reverse := by simp
  unfold rpartition
  rw [if_pos hmem, hreverse, partition_append (by simpa using h)]
  simp

theorem rpartition_of_notMem (h : sep ∉ cs) : rpartition sep cs = ([], false, cs) := by
  unfold rpartition
  rw [if_neg (by simpa using h)]

/-- A text with a separator is what stands before and behind the last one. -/
theorem exists_last_of_mem (h : sep ∈ cs) : ∃ a b, cs = a ++ sep :: b ∧ sep ∉ b := by
  obtain ⟨b, a, hsplit, hb⟩ := List.eq_append_cons_of_mem (List.mem_reverse.mpr h)
  refine ⟨a.reverse, b.reverse, ?_, by simpa using hb⟩
  have hback := congrArg List.reverse hsplit
  simpa using hback

end Parts

/-- The digits of a number in a base that was named in front of it: an underscore may
stand between the two. -/
def prefixed (base : Nat) : List Char → Option Nat
  | '_' :: cs => digits base cs
  | cs => digits base cs

/-- Digits in the base that their prefix names, and else decimal ones; a decimal number
starts with a zero only if it is zero. -/
def digits0 : List Char → Option Nat
  | '0' :: 'x' :: cs | '0' :: 'X' :: cs => prefixed 16 cs
  | '0' :: 'o' :: cs | '0' :: 'O' :: cs => prefixed 8 cs
  | '0' :: 'b' :: cs | '0' :: 'B' :: cs => prefixed 2 cs
  | '0' :: cs => (digits 10 ('0' :: cs)).filter (· = 0)
  | cs => digits 10 cs

/-- `int(s, 0)`. -/
def int0 (cs : List Char) : Option Int := signed digits0 (stripBy isAsciiSpace (cs.map toAscii))

section Decimal

theorem toNat_of_isDigit {c : Char} (h : c.isDigit = true) : 48 ≤ c.toNat ∧ c.toNat ≤ 57 := by
  simpa [Char.isDigit, UInt32.le_iff_toNat_le] using h

theorem digitOf_decimal {c : Char} (h : c.isDigit = true) :
    digitOf 10 c = some (c.toNat - 48) := by
  obtain ⟨hlow, hhigh⟩ := toNat_of_isDigit h
  have hlt : c.toNat - 48 < 10 := by omega
  simp [digitOf, hlow, hhigh, hlt]

theorem digitsFrom_decimal {cs : List Char} (h : ∀ c ∈ cs, c.isDigit = true) (acc : Nat) :
    digitsFrom 10 acc cs = some (Nat.ofDigitChars 10 cs acc) := by
  induction cs generalizing acc with
  | nil => rfl
  | cons c cs ih =>
      have hdigit := h c (by simp)
      have hne : c ≠ '_' := by
        rintro rfl
        cases hdigit
      rw [digitsFrom.eq_3 _ _ _ _ fun c' cs' h => absurd h hne, digitOf_decimal hdigit,
        Option.bind_some, ih fun c hc => h c (by simp [hc]), Nat.ofDigitChars_cons]
      congr 2
      simp
      omega

theorem digits_decimal {cs : List Char} (hne : cs ≠ []) (h : ∀ c ∈ cs, c.isDigit = true) :
    digits 10 cs = some (Nat.ofDigitChars 10 cs 0) := by
  cases cs with
  | nil => exact absurd rfl hne
  | cons c cs =>
      have hdigit := h c (by simp)
      rw [digits, digitOf_decimal hdigit, Option.bind_some,
        digitsFrom_decimal fun c hc => h c (by simp [hc]), Nat.ofDigitChars_cons]
      simp

/-- The decimal digits of a number start with a zero only for zero. -/
theorem head_toDigits {n : Nat} (hn : 0 < n) :
    ∃ c cs, Nat.toDigits 10 n = c :: cs ∧ c ≠ '0' := by
  induction n using Nat.strong_induction_on with
  | _ n ih =>
      by_cases hlt : n < 10
      · have hdigit : ∀ d < 10, 0 < d → d.digitChar ≠ '0' := by decide
        exact ⟨n.digitChar, [], Nat.toDigits_of_lt_base hlt, hdigit n hlt hn⟩
      · obtain ⟨c, cs, hdigits, hc⟩ := ih (n / 10) (by omega) (by omega)
        refine ⟨c, cs ++ [(n % 10).digitChar], ?_, hc⟩
        rw [Nat.toDigits_of_base_le (by decide) (by omega), hdigits]
        rfl

theorem stripBy_of_forall {p : Char → Bool} {cs : List Char} (h : ∀ c ∈ cs, p c = false) :
    stripBy p cs = cs := by
  have hkeep : ∀ ds : List Char, (∀ c ∈ ds, p c = false) → ds.dropWhile p = ds := by
    intro ds hds
    cases ds with
    | nil => rfl
    | cons d ds => rw [List.dropWhile_cons_of_neg (by simp [hds d])]
  unfold stripBy
  rw [hkeep cs h, hkeep _ (by simpa using h), List.reverse_reverse]

/-- A number is read back from its decimal digits. -/
theorem int0_toDigits (n : Nat) : int0 (Nat.toDigits 10 n) = some (n : Int) := by
  have hdigit : ∀ c ∈ Nat.toDigits 10 n, c.isDigit = true := fun c hc =>
    Nat.isDigit_of_mem_toDigits (by decide) (by decide) hc
  have hascii : (Nat.toDigits 10 n).map toAscii = Nat.toDigits 10 n := by
    rw [List.map_congr_left (g := id), List.map_id]
    intro c hc
    obtain ⟨-, hhigh⟩ := toNat_of_isDigit (hdigit c hc)
    exact if_pos (by omega)
  have hstrip : stripBy isAsciiSpace (Nat.toDigits 10 n) = Nat.toDigits 10 n := by
    apply stripBy_of_forall
    intro c hc
    obtain ⟨hlow, -⟩ := toNat_of_isDigit (hdigit c hc)
    have hne : c ≠ ' ' := by
      rintro rfl
      simp at hlow
    have hhigh : ¬c.toNat ≤ 0x0D := by omega
    simp [isAsciiSpace, hne, hhigh]
  unfold int0
  rw [hascii, hstrip]
  rcases Nat.eq_zero_or_pos n with rfl | hn
  · decide
  · obtain ⟨c, cs, hdigits, hc⟩ := head_toDigits hn
    have hread : digits 10 (c :: cs) = some n := by
      rw [← hdigits, digits_decimal Nat.toDigits_ne_nil hdigit, Nat.ofDigitChars_ten_toDigits]
    have hsign : c ≠ '-' ∧ c ≠ '+' := by
      have hfirst := hdigit c (by rw [hdigits]; simp)
      constructor <;> rintro rfl <;> cases hfirst
    rw [hdigits]
    unfold signed
    split
    · simp_all
    · simp_all
    · have hbase : digits0 (c :: cs) = digits 10 (c :: cs) := by
        unfold digits0
        split <;> simp_all
      rw [hbase, hread]
      rfl

end Decimal

end Hornet.Lib.PyStr
