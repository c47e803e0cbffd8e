import Mathlib.Data.List.Basic

/-!
JSON values as a Python program sees them: objects keep the order of their entries,
numbers are whole or not, and a string is read as a number by the rules of `int`.
-/

namespace Hornet.Lib

/-- A number that was written with a fraction or an exponent. -/
inductive JsonFloat where
  | finite (q : Rat)
  | infinite
  | nan
  deriving DecidableEq, Repr

inductive Json where
  | null
  | bool (b : Bool)
  | int (n : Int)
  | float (x : JsonFloat)
  | str (s : String)
  | arr (items : List Json)
  | obj (entries : List (String × Json))

namespace PyStr

/-- The characters that `strip` removes. -/
def isSpace (c : Char) : Bool :=
  (0x09 ≤ c.toNat && c.toNat ≤ 0x0D) || (0x1C ≤ c.toNat && c.toNat ≤ 0x20) ||
    (0x2000 ≤ c.toNat && c.toNat ≤ 0x200A) ||
    [0x85, 0xA0, 0x1680, 0x2028, 0x2029, 0x202F, 0x205F, 0x3000].contains c.toNat

def stripBy (drop : Char → Bool) (cs : List Char) : List Char :=
  ((cs.dropWhile drop).reverse.dropWhile drop).reverse

def strip (cs : List Char) : List Char := stripBy isSpace cs

/-- The zeros of the scripts; the other nine digits follow each of them. -/
def decimalZeros : List Nat :=
  [0x30, 0x660, 0x6F0, 0x7C0, 0x966, 0x9E6, 0xA66, 0xAE6, 0xB66, 0xBE6, 0xC66, 0xCE6, 0xD66,
    0xDE6, 0xE50, 0xED0, 0xF20, 0x1040, 0x1090, 0x17E0, 0x1810, 0x1946, 0x19D0, 0x1A80, 0x1A90,
    0x1B50, 0x1BB0, 0x1C40, 0x1C50, 0xA620, 0xA8D0, 0xA900, 0xA9D0, 0xA9F0, 0xAA50, 0xABF0,
    0xFF10, 0x104A0, 0x10D30, 0x11066, 0x110F0, 0x11136, 0x111D0, 0x112F0, 0x11450, 0x114D0,
    0x11650, 0x116C0, 0x11730, 0x118E0, 0x11950, 0x11C50, 0x11D50, 0x11DA0, 0x16A60, 0x16AC0,
    0x16B50, 0x1D7CE, 0x1D7D8, 0x1D7E2, 0x1D7EC, 0x1D7F6, 0x1E140, 0x1E2F0, 0x1E950, 0x1FBF0]

/-- The digits that are not decimal, such as superscripts, as ranges. -/
def otherDigits : List (Nat × Nat) :=
  [(0xB2, 0xB3), (0xB9, 0xB9), (0x1369, 0x1371), (0x19DA, 0x19DA), (0x2070, 0x2070),
    (0x2074, 0x2079), (0x2080, 0x2089), (0x2460, 0x2468), (0x2474, 0x247C), (0x2488, 0x2490),
    (0x24EA, 0x24EA), (0x24F5, 0x24FD), (0x24FF, 0x24FF), (0x2776, 0x277E), (0x2780, 0x2788),
    (0x278A, 0x2792), (0x10A40, 0x10A43), (0x10E60, 0x10E68), (0x11052, 0x1105A),
    (0x1F100, 0x1F10A)]

def decimal (c : Char) : Option Nat :=
  (decimalZeros.find? fun z => z ≤ c.toNat && c.toNat < z + 10).map (c.toNat - ·)

/-- `str.isdigit`. -/
def isDigit (cs : List Char) : Bool :=
  !cs.isEmpty && cs.all fun c =>
    (decimal c).isSome || otherDigits.any fun r => r.1 ≤ c.toNat && c.toNat ≤ r.2

/-- What `int` reads in the place of a character: a digit of any script is one of ASCII,
a space beyond ASCII a blank. -/
def toAscii (c : Char) : Char :=
  if c.toNat < 127 then c
  else if isSpace c then ' '
  else match decimal c with
    | some d => Char.ofNat (0x30 + d)
    | none => '?'

def isAsciiSpace (c : Char) : Bool := c = ' ' || (0x09 ≤ c.toNat && c.toNat ≤ 0x0D)

def digitOf (base : Nat) (c : Char) : Option Nat :=
  let n := c.toNat
  let d :=
    if 0x30 ≤ n && n ≤ 0x39 then n - 0x30
    else if 0x61 ≤ n && n ≤ 0x7A then n - 0x61 + 10
    else if 0x41 ≤ n && n ≤ 0x5A then n - 0x41 + 10
    else base
  if d < base then some d else none

/-- Digits, with single underscores between them. -/
def digitsFrom (base acc : Nat) : List Char → Option Nat
  | [] => some acc
  | '_' :: c :: cs => (digitOf base c).bind fun d => digitsFrom base (acc * base + d) cs
  | c :: cs => (digitOf base c).bind fun d => digitsFrom base (acc * base + d) cs

def digits (base : Nat) : List Char → Option Nat
  | [] => none
  | c :: cs => (digitOf base c).bind fun d => digitsFrom base d cs

/-- A number in base 16 may have a prefix, and an underscore behind it. -/
def dropHexPrefix : List Char → List Char
  | '0' :: 'x' :: '_' :: cs => cs
  | '0' :: 'x' :: cs => cs
  | '0' :: 'X' :: '_' :: cs => cs
  | '0' :: 'X' :: cs => cs
  | cs => cs

def signed (f : List Char → Option Nat) : List Char → Option Int
  | '-' :: cs => (f cs).map fun n => -(n : Int)
  | '+' :: cs => (f cs).map Int.ofNat
  | cs => (f cs).map Int.ofNat

/-- `int(s)`, and `int(s, 16)`. -/
def int (cs : List Char) : Option Int := signed (digits 10) (stripBy isAsciiSpace (cs.map toAscii))

def int16 (cs : List Char) : Option Int :=
  signed (fun cs => digits 16 (dropHexPrefix cs)) (stripBy isAsciiSpace (cs.map toAscii))

theorem dropWhile_concat {p : Char → Bool} {c : Char} (hc : p c = false) (cs : List Char) :
    ∃ cs', (cs ++ [c]).dropWhile p = cs' ++ [c] := by
  induction cs with
  | nil => exact ⟨[], by rw [List.nil_append, List.dropWhile_cons_of_neg (by simp [hc])]⟩
  | cons d cs ih =>
      by_cases hd : p d = true
      · rw [List.cons_append, List.dropWhile_cons_of_pos hd]
        exact ih
      · rw [List.cons_append, List.dropWhile_cons_of_neg hd]
        exact ⟨d :: cs, rfl⟩

/-- What is stripped keeps its first character if that is not dropped. -/
theorem stripBy_cons {p : Char → Bool} {c : Char} (hc : p c = false) (cs : List Char) :
    ∃ cs', stripBy p (c :: cs) = c :: cs' := by
  obtain ⟨cs', hcs'⟩ := dropWhile_concat hc cs.reverse
  refine ⟨cs'.reverse, ?_⟩
  rw [stripBy, List.dropWhile_cons_of_neg (by simp [hc]), List.reverse_cons, hcs',
    List.reverse_append]
  rfl

/-- A number does not start with an underscore. -/
theorem int_underscore (cs : List Char) : int ('_' :: cs) = none := by
  obtain ⟨cs', hcs'⟩ := stripBy_cons (p := isAsciiSpace) (c := '_') (by decide) (cs.map toAscii)
  have hmap : ('_' :: cs).map toAscii = '_' :: cs.map toAscii := by
    rw [List.map_cons]
    rfl
  rw [int, hmap, hcs']
  rfl

theorem int16_underscore (cs : List Char) : int16 ('_' :: cs) = none := by
  obtain ⟨cs', hcs'⟩ := stripBy_cons (p := isAsciiSpace) (c := '_') (by decide) (cs.map toAscii)
  have hmap : ('_' :: cs).map toAscii = '_' :: cs.map toAscii := by
    rw [List.map_cons]
    rfl
  rw [int16, hmap, hcs']
  rfl

/-- The first part of a split text starts as the text does. -/
theorem splitOn_underscore (sep : Char) (hsep : '_' ≠ sep) (cs : List Char) :
    ∃ part rest, ('_' :: cs).splitOn sep = ('_' :: part) :: rest := by
  have hne : (cs.splitOn sep) ≠ [] := List.splitOn_ne_nil _ _
  obtain ⟨part, rest, hparts⟩ := List.exists_cons_of_ne_nil hne
  refine ⟨part, rest, ?_⟩
  rw [List.splitOn_cons_eq_if_modifyHead, if_neg (by simp [hsep]), hparts]
  rfl

end PyStr

namespace Json

def get (entries : List (String × Json)) (k : String) : Option Json := entries.lookup k

def isNull : Json → Bool
  | .null => true
  | _ => false

def isFalse : Json → Bool
  | .bool false => true
  | _ => false

def str? : Json → Option String
  | .str s => some s
  | _ => none

/-- `bool(x)`. -/
def truthy : Json → Bool
  | .null => false
  | .bool b => b
  | .int n => n ≠ 0
  | .float (.finite q) => q ≠ 0
  | .float _ => true
  | .str s => s ≠ ""
  | .arr items => !items.isEmpty
  | .obj entries => !entries.isEmpty

/-- `int(x)`. -/
def toInt : Json → Option Int
  | .bool b => some (if b then 1 else 0)
  | .int n => some n
  | .float (.finite q) => some (q.num.tdiv q.den)
  | .str s => PyStr.int s.toList
  | _ => none

/-- `x == n`, where a truth value is a number too. -/
def eqInt (n : Int) : Json → Bool
  | .bool b => n = if b then 1 else 0
  | .int m => m = n
  | .float (.finite q) => q = n
  | _ => false

/-- `x == name`, where the name may be absent. -/
def eqName (name : Option String) : Json → Bool
  | .null => name.isNone
  | .str s => name = some s
  | _ => false

end Json

end Hornet.Lib
