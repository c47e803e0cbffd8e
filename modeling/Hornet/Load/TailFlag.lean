import Hornet.Lib.PyText
import Hornet.Load.Link

/-!
The texts of tail specifications, `OBJ:ENTRY[@[MAP/]SLOT]`: how they are read and how one
is printed as a flag. What was read is printed as a text that is read as the same again.
-/

namespace Hornet

open Lib

inductive TailSpecError where
  | shape (text : String)
  | slotNotNumber (slot : String)
  | slotNegative (slot : Int)
  deriving DecidableEq, Repr

/-- The specification of an object and an entry, for the map and the slot behind the `@`. -/
def parseTailSlot (path entry : String) (at_ : List Char) : Except TailSpecError TailSpec :=
  if at_ = [] then pure { path := path, entry := entry }
  else
    let (map, _, slotText) := PyStr.rpartition '/' at_
    let mapName := if map = [] then none else some (String.ofList map)
    let slotText := PyStr.strip slotText
    if slotText = [] then pure { path := path, entry := entry, mapName := mapName }
    else
      match PyStr.int0 slotText with
      | none => throw (.slotNotNumber (String.ofList slotText))
      | some slot =>
          if slot < 0 then throw (.slotNegative slot)
          else pure { path := path, entry := entry, mapName := mapName, slot := some slot.toNat }

def parseTailSpec (text : String) : Except TailSpecError TailSpec :=
  let (body, _, at_) := PyStr.partition '@' text.toList
  let (path, sep, entry) := PyStr.rpartition ':' body
  if sep = false ∨ path = [] ∨ entry = [] then throw (.shape text)
  else parseTailSlot (String.ofList path) (String.ofList entry) at_

namespace TailSpec

/-- The name of the map, if it has one that is not empty. -/
def namedMap (t : TailSpec) : Option String := t.mapName.filter (· ≠ "")

/-- What the flag says behind the entry. -/
def flagSlot (t : TailSpec) : String :=
  if t.namedMap.isSome ∨ t.slot.isSome then
    "@" ++ ((t.namedMap.map fun name => name ++ "/").getD "") ++ ((t.slot.map toString).getD "")
  else ""

/-- The argument of the flag. -/
def flagArg (t : TailSpec) : String := t.path ++ ":" ++ t.entry ++ t.flagSlot

def asFlag (t : TailSpec) : String := "--tail " ++ t.flagArg

/-- What holds of a specification that was read. -/
structure Printable (t : TailSpec) : Prop where
  path : t.path ≠ "" ∧ '@' ∉ t.path.toList
  entry : t.entry ≠ "" ∧ '@' ∉ t.entry.toList ∧ ':' ∉ t.entry.toList
  mapName : t.mapName ≠ some ""

end TailSpec

section RoundTrip

theorem parseTailSlot_ok {path entry : String} {at_ : List Char} {t : TailSpec}
    (h : parseTailSlot path entry at_ = .ok t) :
    t.path = path ∧ t.entry = entry ∧ t.mapName ≠ some "" := by
  unfold parseTailSlot at h
  split at h
  · cases h
    exact ⟨rfl, rfl, by simp⟩
  · have hnamed : (if (PyStr.rpartition '/' at_).1 = [] then none
        else some (String.ofList (PyStr.rpartition '/' at_).1)) ≠ some "" := by
      split
      · simp
      · simpa using ‹_›
    dsimp only at h
    split at h
    · cases h
      exact ⟨rfl, rfl, hnamed⟩
    · split at h
      · cases h
      · split at h
        · cases h
        · cases h
          exact ⟨rfl, rfl, hnamed⟩

theorem printable_of_parse {text : String} {t : TailSpec} (h : parseTailSpec text = .ok t) :
    t.Printable := by
  have hbody : '@' ∉ (PyStr.partition '@' text.toList).1 := PyStr.notMem_partition
  unfold parseTailSpec at h
  dsimp only at h
  generalize (PyStr.partition '@' text.toList).1 = body at h hbody
  by_cases hmem : ':' ∈ body
  · obtain ⟨path, entry, rfl, hentry⟩ := PyStr.exists_last_of_mem hmem
    rw [PyStr.rpartition_append hentry] at h
    dsimp only at h
    split at h
    · cases h
    · rename_i hne
      obtain ⟨hpath, hentry', hmap⟩ := parseTailSlot_ok h
      simp only [List.mem_append, List.mem_cons, not_or] at hbody
      refine ⟨?_, ?_, hmap⟩
      · rw [hpath, String.toList_ofList]
        exact ⟨by simp_all, hbody.1⟩
      · rw [hentry', String.toList_ofList]
        exact ⟨by simp_all, hbody.2.2, hentry⟩
  · rw [PyStr.rpartition_of_notMem hmem, if_pos (.inl rfl)] at h
    cases h

theorem strip_toDigits (n : Nat) : PyStr.strip (Nat.toDigits 10 n) = Nat.toDigits 10 n := by
  apply PyStr.stripBy_of_forall
  intro c hc
  have hdigit := Nat.isDigit_of_mem_toDigits (by decide) (by decide) hc
  obtain ⟨hlow, hhigh⟩ := PyStr.toNat_of_isDigit hdigit
  simp [PyStr.isSpace]
  omega

/-- The last part of what the flag says is the slot, if there is one. -/
def slotText (slot : Option Nat) : List Char := (slot.map (Nat.toDigits 10)).getD []

theorem parseTailSlot_parts (path entry : String) {at_ map : List Char} {sep : Bool}
    {slot : Option Nat} (hne : at_ ≠ []) (hparts : PyStr.rpartition '/' at_ = (map, sep, slotText slot)) :
    parseTailSlot path entry at_ = .ok
      { path := path, entry := entry
        mapName := if map = [] then none else some (String.ofList map), slot := slot } := by
  unfold parseTailSlot
  rw [if_neg hne, hparts]
  cases slot with
  | none =>
      dsimp only
      rw [if_pos (by rfl)]
      rfl
  | some n =>
      have hslot : slotText (some n) = Nat.toDigits 10 n := rfl
      dsimp only
      rw [hslot, strip_toDigits, if_neg Nat.toDigits_ne_nil, PyStr.int0_toDigits]
      dsimp only
      rw [if_neg (by omega), Int.toNat_natCast]
      rfl

theorem notMem_slotText (slot : Option Nat) : '/' ∉ slotText slot := by
  cases slot with
  | none => exact List.not_mem_nil
  | some n =>
      intro hmem
      have hdigit := Nat.isDigit_of_mem_toDigits (by decide) (by decide) hmem
      cases hdigit

/-- The map and the slot are read back from what the flag says behind the `@`. -/
theorem parseTailSlot_flag (path entry : String) {mapName : Option String} {slot : Option Nat}
    (hmap : mapName ≠ some "") (hsome : mapName.isSome ∨ slot.isSome) :
    parseTailSlot path entry
      (((mapName.map fun name => name.toList ++ ['/']).getD []) ++ slotText slot) =
      .ok { path := path, entry := entry, mapName := mapName, slot := slot } := by
  cases mapName with
  | none =>
      have hne : slotText slot ≠ [] := by
        cases slot with
        | none => simp at hsome
        | some n => exact Nat.toDigits_ne_nil
      exact parseTailSlot_parts _ _ hne (PyStr.rpartition_of_notMem (notMem_slotText slot))
  | some name =>
      have hparts : PyStr.rpartition '/' (name.toList ++ ['/'] ++ slotText slot) =
          (name.toList, true, slotText slot) := by
        rw [List.append_assoc]
        exact PyStr.rpartition_append (notMem_slotText slot) _
      have hname : name.toList ≠ [] := by
        intro hnil
        apply hmap
        rw [← String.ofList_toList (s := name), hnil]
      have hread := parseTailSlot_parts path entry (by simp) hparts
      rw [if_neg hname, String.ofList_toList] at hread
      exact hread

theorem toList_flagSlot {t : TailSpec} (hmap : t.mapName ≠ some "")
    (hsome : t.mapName.isSome ∨ t.slot.isSome) :
    t.flagSlot.toList =
      '@' :: (((t.mapName.map fun name => name.toList ++ ['/']).getD []) ++ slotText t.slot) := by
  have hnamed : t.namedMap = t.mapName := by
    unfold TailSpec.namedMap
    cases hname : t.mapName with
    | none => rfl
    | some name =>
        have hne : name ≠ "" := by
          rintro rfl
          exact hmap hname
        simp [hne]
  unfold TailSpec.flagSlot
  rw [hnamed, if_pos hsome]
  cases t.mapName <;> cases t.slot <;> simp [slotText]

end RoundTrip

/-- What was read is printed as a flag whose argument is read as the same. -/
theorem tail_spec_round_trip {text : String} {t : TailSpec} (h : parseTailSpec text = .ok t) :
    ∃ arg, t.asFlag = "--tail " ++ arg ∧ parseTailSpec arg = .ok t := by
  refine ⟨t.flagArg, rfl, ?_⟩
  obtain ⟨⟨hpath, hpathAt⟩, ⟨hentry, hentryAt, hentryColon⟩, hmap⟩ := printable_of_parse h
  have hbody : '@' ∉ t.path.toList ++ ':' :: t.entry.toList := by
    simp [hpathAt, hentryAt]
  have hlist : t.flagArg.toList = (t.path.toList ++ ':' :: t.entry.toList) ++ t.flagSlot.toList := by
    simp [TailSpec.flagArg]
  have hpath' : t.path.toList ≠ [] := by simpa using hpath
  have hentry' : t.entry.toList ≠ [] := by simpa using hentry
  unfold parseTailSpec
  rw [hlist]
  by_cases hsome : t.mapName.isSome ∨ t.slot.isSome
  · rw [toList_flagSlot hmap hsome, PyStr.partition_append hbody]
    dsimp only
    rw [PyStr.rpartition_append hentryColon]
    dsimp only
    rw [if_neg (by simp [hpath', hentry']), String.ofList_toList, String.ofList_toList]
    exact parseTailSlot_flag t.path t.entry hmap hsome
  · have hnone : t.mapName = none ∧ t.slot = none := by simpa using hsome
    have hflag : t.flagSlot.toList = [] := by
      unfold TailSpec.flagSlot TailSpec.namedMap
      rw [hnone.1, hnone.2]
      rfl
    rw [hflag, List.append_nil, PyStr.partition_of_notMem hbody]
    dsimp only
    rw [PyStr.rpartition_append hentryColon]
    dsimp only
    rw [if_neg (by simp [hpath', hentry']), String.ofList_toList, String.ofList_toList]
    obtain ⟨path, entry, mapName, slot⟩ := t
    obtain ⟨rfl, rfl⟩ := hnone
    rfl

theorem tail_spec_round_trip_hex :
    ∃ arg, (TailSpec.mk "a:b/next.o" "xdp" (some "maps/@jmp") (some 16)).asFlag = "--tail " ++ arg ∧
      parseTailSpec arg = .ok (TailSpec.mk "a:b/next.o" "xdp" (some "maps/@jmp") (some 16)) := by
  have hread : parseTailSpec "a:b/next.o:xdp@maps/@jmp/ 0x1_0 " =
      .ok (TailSpec.mk "a:b/next.o" "xdp" (some "maps/@jmp") (some 16)) := by
    decide +kernel
  exact tail_spec_round_trip hread

end Hornet
