import Mathlib.Data.List.Nodup

/-!
Dictionaries that keep the order in which their keys were first written.
-/

namespace Hornet.Lib

variable {κ β : Type} [DecidableEq κ]

/-- Writes `v` at `k`, in the place of an earlier value or at the end. -/
def setEntry (k : κ) (v : β) : List (κ × β) → List (κ × β)
  | [] => [(k, v)]
  | x :: xs => if x.1 = k then (k, v) :: xs else x :: setEntry k v xs

theorem keys_setEntry (k : κ) (v : β) (xs : List (κ × β)) :
    (setEntry k v xs).map (·.1) =
      if k ∈ xs.map (·.1) then xs.map (·.1) else xs.map (·.1) ++ [k] := by
  induction xs with
  | nil => simp [setEntry]
  | cons x xs ih =>
      unfold setEntry
      split
      · rename_i heq
        simp [heq]
      · rename_i hne
        rw [List.map_cons, List.map_cons, ih]
        have hmem : k ∈ x.1 :: xs.map (·.1) ↔ k ∈ xs.map (·.1) := by
          simp [List.mem_cons, Ne.symm hne]
        by_cases hk : k ∈ xs.map (·.1)
        · rw [if_pos hk, if_pos (hmem.mpr hk)]
        · rw [if_neg hk, if_neg (mt hmem.mp hk), List.cons_append]

theorem nodup_setEntry (k : κ) (v : β) {xs : List (κ × β)} (h : (xs.map (·.1)).Nodup) :
    ((setEntry k v xs).map (·.1)).Nodup := by
  rw [keys_setEntry]
  split
  · exact h
  · rename_i hk
    exact List.nodup_append.mpr ⟨h, by simp, fun a ha b hb => by
      obtain rfl := List.mem_singleton.mp hb
      exact fun heq => hk (heq ▸ ha)⟩

theorem lookup_setEntry_self (k : κ) (v : β) (xs : List (κ × β)) :
    (setEntry k v xs).lookup k = some v := by
  induction xs with
  | nil => simp [setEntry]
  | cons x xs ih =>
      unfold setEntry
      split
      · simp
      · rename_i hne
        rw [List.lookup_cons, beq_false_of_ne (Ne.symm hne)]
        exact ih

theorem lookup_setEntry_of_ne {k k' : κ} (h : k' ≠ k) (v : β) (xs : List (κ × β)) :
    (setEntry k v xs).lookup k' = xs.lookup k' := by
  induction xs with
  | nil => simp [setEntry, List.lookup_cons, beq_false_of_ne h]
  | cons x xs ih =>
      unfold setEntry
      split
      · rename_i heq
        rw [List.lookup_cons, List.lookup_cons, heq, beq_false_of_ne h]
      · rw [List.lookup_cons, List.lookup_cons, ih]

variable (κ β) in
/-- A dictionary: entries in order, one for each key. -/
structure Dict where
  entries : List (κ × β)
  nodup : (entries.map (·.1)).Nodup

namespace Dict

def empty : Dict κ β := ⟨[], by simp⟩

def set (d : Dict κ β) (k : κ) (v : β) : Dict κ β :=
  ⟨setEntry k v d.entries, nodup_setEntry k v d.nodup⟩

def get? (d : Dict κ β) (k : κ) : Option β := d.entries.lookup k

def keys (d : Dict κ β) : List κ := d.entries.map (·.1)

/-- The dictionary that is written entry by entry. -/
def ofList (xs : List (κ × β)) : Dict κ β := xs.foldl (fun d x => d.set x.1 x.2) empty

@[simp] theorem get?_empty (k : κ) : (empty : Dict κ β).get? k = none := rfl

@[simp] theorem get?_set_self (d : Dict κ β) (k : κ) (v : β) : (d.set k v).get? k = some v :=
  lookup_setEntry_self k v d.entries

theorem get?_set_of_ne (d : Dict κ β) {k k' : κ} (v : β) (h : k' ≠ k) :
    (d.set k v).get? k' = d.get? k' :=
  lookup_setEntry_of_ne h v d.entries

theorem get?_set (d : Dict κ β) (k k' : κ) (v : β) :
    (d.set k v).get? k' = if k' = k then some v else d.get? k' := by
  split
  · rename_i h
    rw [h, get?_set_self]
  · rename_i h
    exact get?_set_of_ne d v h

theorem get?_eq_none {d : Dict κ β} {k : κ} : d.get? k = none ↔ k ∉ d.keys := by
  unfold get? keys
  induction d.entries with
  | nil => simp
  | cons x xs ih =>
      rw [List.lookup_cons, List.map_cons, List.mem_cons]
      by_cases hk : k = x.1
      · simp [hk]
      · simp [beq_false_of_ne hk, hk, ih]

theorem get?_isSome {d : Dict κ β} {k : κ} : (d.get? k).isSome ↔ k ∈ d.keys := by
  rw [Option.isSome_iff_ne_none, ne_eq, get?_eq_none, not_not]

theorem mem_keys_set {d : Dict κ β} {k k' : κ} {v : β} :
    k' ∈ (d.set k v).keys ↔ k' ∈ d.keys ∨ k' = k := by
  have hkeys : (d.set k v).keys = if k ∈ d.keys then d.keys else d.keys ++ [k] :=
    keys_setEntry k v d.entries
  rw [hkeys]
  split
  · rename_i hk
    exact ⟨.inl, fun h => h.elim id fun heq => heq ▸ hk⟩
  · simp

section OfList

variable {d : Dict κ β} {k : κ} {v : β} {xs : List (κ × β)}

theorem mem_of_get?_foldl (h : (xs.foldl (fun d x => d.set x.1 x.2) d).get? k = some v) :
    (k, v) ∈ xs ∨ d.get? k = some v := by
  induction xs generalizing d with
  | nil => exact .inr h
  | cons x xs ih =>
      rcases ih h with h | h
      · exact .inl (List.mem_cons_of_mem _ h)
      · rw [get?_set] at h
        split at h
        · rename_i hk
          cases h
          exact .inl (by simp [hk])
        · exact .inr h

/-- What a dictionary holds was written to it. -/
theorem mem_of_get?_ofList (h : (ofList xs).get? k = some v) : (k, v) ∈ xs :=
  (mem_of_get?_foldl h).elim id nofun

theorem mem_keys_foldl (h : k ∈ xs.map (·.1) ∨ k ∈ d.keys) :
    k ∈ (xs.foldl (fun d x => d.set x.1 x.2) d).keys := by
  induction xs generalizing d with
  | nil => exact h.elim nofun id
  | cons x xs ih =>
      apply ih
      rw [mem_keys_set]
      rcases h with h | h
      · exact (List.mem_cons.mp h).elim (fun hk => .inr (.inr hk)) .inl
      · exact .inr (.inl h)

/-- A key that was written has a value. -/
theorem exists_get?_ofList (h : (k, v) ∈ xs) : ∃ v', (ofList xs).get? k = some v' := by
  have hk : k ∈ (ofList xs).keys :=
    mem_keys_foldl (.inl (List.mem_map_of_mem (f := (·.1)) h))
  exact Option.isSome_iff_exists.mp (get?_isSome.mpr hk)

end OfList

end Dict

end Hornet.Lib
