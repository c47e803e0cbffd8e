import Mathlib.Data.Finset.Basic
import Mathlib.Tactic.Common

/-!
Sets that are saturated under guarded rules. A rule that is triggered by a member of the
set adds its own members to it. Rounds over all rules, one after the other, are repeated
until a round changes nothing; what they end in is all that the rules derive.
-/

namespace Hornet.Lib

variable {α β : Type} [DecidableEq α] (trigger : β → Option α) (adds : β → Finset α)

/-- A rule fires if its trigger is in the set. -/
def fire (s : Finset α) (x : β) : Finset α :=
  match trigger x with
  | some a => if a ∈ s then s ∪ adds x else s
  | none => s

def fireAll (rules : List β) (s : Finset α) : Finset α := rules.foldl (fire trigger adds) s

/-- Rounds until one of them changes nothing. -/
def saturate (rules : List β) : Nat → Finset α → Finset α
  | 0, s => s
  | fuel + 1, s =>
      if fireAll trigger adds rules s = s then s
      else saturate rules fuel (fireAll trigger adds rules s)

/-- What the rules derive from a set. -/
inductive Derived (rules : List β) (start : Finset α) : α → Prop
  | start {a : α} (h : a ∈ start) : Derived rules start a
  | rule {x : β} {a b : α} (hx : x ∈ rules) (htrigger : trigger x = some a)
      (ha : Derived rules start a) (hb : b ∈ adds x) : Derived rules start b

/-- Every rule whose trigger is in the set has added its members. -/
def Saturated (rules : List β) (s : Finset α) : Prop :=
  ∀ x ∈ rules, ∀ a, trigger x = some a → a ∈ s → adds x ⊆ s

variable {trigger adds} {rules : List β} {s t : Finset α}

theorem subset_fire (s : Finset α) (x : β) : s ⊆ fire trigger adds s x := by
  unfold fire
  split
  · split
    · exact Finset.subset_union_left
    · exact subset_rfl
  · exact subset_rfl

theorem subset_fireAll (rules : List β) (s : Finset α) : s ⊆ fireAll trigger adds rules s := by
  induction rules generalizing s with
  | nil => exact subset_rfl
  | cons x rules ih => exact (subset_fire s x).trans (ih _)

/-- A rule that changes the set has added members that were missing. -/
theorem adds_of_fire_ne {x : β} (h : fire trigger adds s x ≠ s) :
    ¬ adds x ⊆ s ∧ adds x ⊆ fire trigger adds s x := by
  unfold fire at h ⊢
  split at h
  · rename_i a htrigger
    by_cases ha : a ∈ s
    · rw [if_pos ha] at h ⊢
      refine ⟨fun hsub => h (Finset.union_eq_left.mpr hsub), Finset.subset_union_right⟩
    · exact absurd (if_neg ha) h
  · exact absurd rfl h

/-- So has a round that changes the set. -/
theorem adds_of_fireAll_ne (h : fireAll trigger adds rules s ≠ s) :
    ∃ x ∈ rules, ¬ adds x ⊆ s ∧ adds x ⊆ fireAll trigger adds rules s := by
  induction rules generalizing s with
  | nil => exact absurd rfl h
  | cons x rules ih =>
      have hround : fireAll trigger adds (x :: rules) s =
          fireAll trigger adds rules (fire trigger adds s x) := rfl
      by_cases hfire : fire trigger adds s x = s
      · rw [hround, hfire] at h ⊢
        obtain ⟨y, hy, hnew⟩ := ih h
        exact ⟨y, List.mem_cons_of_mem _ hy, hnew⟩
      · obtain ⟨hmissing, hadded⟩ := adds_of_fire_ne hfire
        exact ⟨x, List.mem_cons_self, hmissing, hadded.trans (subset_fireAll rules _)⟩

/-- The rules some of whose members are missing. -/
def pending (adds : β → Finset α) (rules : List β) (s : Finset α) : Nat :=
  rules.countP fun x => ¬ adds x ⊆ s

theorem pending_lt (h : fireAll trigger adds rules s ≠ s) :
    pending adds rules (fireAll trigger adds rules s) < pending adds rules s := by
  obtain ⟨x, hx, hmissing, hadded⟩ := adds_of_fireAll_ne h
  obtain ⟨before, after, hsplit⟩ := List.append_of_mem hx
  have hmono : ∀ xs : List β, pending adds xs (fireAll trigger adds rules s) ≤ pending adds xs s := by
    intro xs
    refine List.countP_mono_left fun y _ hy => ?_
    simp only [decide_eq_true_eq] at hy ⊢
    exact fun hsub => hy (hsub.trans (subset_fireAll rules s))
  have hbefore := hmono before
  have hafter := hmono after
  simp only [pending] at hbefore hafter ⊢
  rw [hsplit, List.countP_append, List.countP_append, List.countP_cons, List.countP_cons, ← hsplit]
  simp only [hmissing, hadded]
  simp only [not_true_eq_false, decide_false, not_false_eq_true, decide_true, if_true,
    Bool.false_eq_true, if_false]
  omega

/-- With a round for each rule and one more, the last round changes nothing. -/
theorem fireAll_saturate {fuel : Nat} (h : pending adds rules s < fuel) :
    fireAll trigger adds rules (saturate trigger adds rules fuel s) =
      saturate trigger adds rules fuel s := by
  induction fuel generalizing s with
  | zero => omega
  | succ fuel ih =>
      unfold saturate
      by_cases hsame : fireAll trigger adds rules s = s
      · rw [if_pos hsame]
        exact hsame
      · rw [if_neg hsame]
        have hless := pending_lt hsame
        exact ih (by omega)

theorem saturated_of_fireAll (h : fireAll trigger adds rules s = s) :
    Saturated trigger adds rules s := by
  intro x hx a htrigger ha
  have hmid : ∀ xs : List β, x ∈ xs → ∀ t : Finset α, a ∈ t →
      adds x ⊆ fireAll trigger adds xs t := by
    intro xs
    induction xs with
    | nil => exact fun hx => absurd hx List.not_mem_nil
    | cons y ys ih =>
        intro hmem t ht
        rcases List.mem_cons.mp hmem with rfl | hmem
        · have hfire : adds x ⊆ fire trigger adds t x := by
            simp only [fire, htrigger, if_pos ht]
            exact Finset.subset_union_right
          exact hfire.trans (subset_fireAll ys _)
        · exact ih hmem _ (subset_fire t y ht)
  exact h ▸ hmid rules hx s ha

theorem derived_fire {x : β} (hx : x ∈ rules)
    (h : ∀ a ∈ t, Derived trigger adds rules s a) :
    ∀ a ∈ fire trigger adds t x, Derived trigger adds rules s a := by
  intro b hb
  unfold fire at hb
  split at hb
  · rename_i a htrigger
    split at hb
    · rename_i ha
      rcases Finset.mem_union.mp hb with hb | hb
      · exact h b hb
      · exact .rule hx htrigger (h a ha) hb
    · exact h b hb
  · exact h b hb

theorem derived_fireAll (h : ∀ a ∈ t, Derived trigger adds rules s a) :
    ∀ a ∈ fireAll trigger adds rules t, Derived trigger adds rules s a := by
  unfold fireAll
  refine List.foldlRecOn rules _ (motive := fun t => ∀ a ∈ t, Derived trigger adds rules s a) h ?_
  exact fun t ht x hx => derived_fire hx ht

theorem derived_saturate (fuel : Nat) (h : ∀ a ∈ t, Derived trigger adds rules s a) :
    ∀ a ∈ saturate trigger adds rules fuel t, Derived trigger adds rules s a := by
  induction fuel generalizing t with
  | zero => exact h
  | succ fuel ih =>
      unfold saturate
      split
      · exact h
      · exact ih (derived_fireAll h)

theorem subset_saturate (fuel : Nat) (s : Finset α) : s ⊆ saturate trigger adds rules fuel s := by
  induction fuel generalizing s with
  | zero => exact subset_rfl
  | succ fuel ih =>
      unfold saturate
      split
      · exact subset_rfl
      · exact (subset_fireAll rules s).trans (ih _)

omit [DecidableEq α] in
/-- A saturated set holds all that is derived from a part of it. -/
theorem Saturated.derived (h : Saturated trigger adds rules t) (hsub : s ⊆ t) {a : α}
    (ha : Derived trigger adds rules s a) : a ∈ t := by
  induction ha with
  | start ha => exact hsub ha
  | rule hx htrigger _ hb ih => exact h _ hx _ htrigger ih hb

theorem pending_le (adds : β → Finset α) (rules : List β) (s : Finset α) :
    pending adds rules s ≤ rules.length := List.countP_le_length

theorem saturated_saturate {fuel : Nat} (h : rules.length < fuel) (s : Finset α) :
    Saturated trigger adds rules (saturate trigger adds rules fuel s) :=
  saturated_of_fireAll (fireAll_saturate ((pending_le adds rules s).trans_lt h))

/-- The rounds end in exactly what the rules derive. -/
theorem mem_saturate_iff {fuel : Nat} (h : rules.length < fuel) {a : α} :
    a ∈ saturate trigger adds rules fuel s ↔ Derived trigger adds rules s a := by
  constructor
  · exact derived_saturate fuel (fun b hb => .start hb) a
  · exact (saturated_saturate h s).derived (subset_saturate fuel s)

end Hornet.Lib
