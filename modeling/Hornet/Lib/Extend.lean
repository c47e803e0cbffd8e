import Hornet.Lib.Fold

/-!
Computations in `Except` that do what others do, and may succeed where those fail.
-/

namespace Hornet.Lib

variable {ε α β σ : Type}

/-- The second computation has the result of the first where that one succeeds. -/
def Extends (x : Except ε α) (y : Except ε α) : Prop := ∀ a, x = .ok a → y = .ok a

namespace Extends

variable {x : Except ε α} {y : Except ε α}

theorem refl (x : Except ε α) : Extends x x := fun _ h => h

theorem trans {z : Except ε α} (h : Extends x y) (h' : Extends y z) : Extends x z :=
  fun a hx => h' a (h a hx)

theorem throw (e : ε) (y : Except ε α) : Extends (throw e : Except ε α) y := by
  intro a h
  cases h

theorem bind {f : α → Except ε β} {g : α → Except ε β} (h : Extends x y)
    (hf : ∀ a, x = .ok a → Extends (f a) (g a)) : Extends (x >>= f) (y >>= g) := by
  intro b hb
  obtain ⟨a, ha, hfa⟩ := bind_eq_ok.mp hb
  exact bind_eq_ok.mpr ⟨a, h a ha, hf a ha b hfa⟩

theorem ite {p : Prop} [Decidable p] {x' : Except ε α} {y' : Except ε α}
    (h : p → Extends x y) (h' : ¬p → Extends x' y') :
    Extends (if p then x else x') (if p then y else y') := by
  by_cases hp : p
  · rw [if_pos hp, if_pos hp]
    exact h hp
  · rw [if_neg hp, if_neg hp]
    exact h' hp

/-- A part that is only computed if it is not known, and what is done with it. -/
theorem orKnown {p : Prop} [Decidable p] {f g : α → Except ε β} (h : Extends x y) (a : α)
    (hf : ∀ a, Extends (f a) (g a)) :
    Extends (if p then pure a >>= f else x >>= f) (if p then pure a >>= g else y >>= g) :=
  .ite (fun _ => (refl _).bind fun a _ => hf a) fun _ => h.bind fun a _ => hf a

theorem mapM {f : α → Except ε β} {g : α → Except ε β} {xs : List α}
    (h : ∀ x ∈ xs, Extends (f x) (g x)) : Extends (xs.mapM f) (xs.mapM g) := by
  induction xs with
  | nil => exact refl _
  | cons x xs ih =>
      rw [List.forall_mem_cons] at h
      rw [List.mapM_cons, List.mapM_cons]
      refine h.1.bind fun y _ => ?_
      refine (ih h.2).bind fun ys _ => ?_
      exact refl _

theorem foldlM {f : σ → α → Except ε σ} {g : σ → α → Except ε σ} {xs : List α}
    (h : ∀ x ∈ xs, ∀ s, Extends (f s x) (g s x)) (s : σ) :
    Extends (xs.foldlM f s) (xs.foldlM g s) := by
  induction xs generalizing s with
  | nil => exact refl _
  | cons x xs ih =>
      rw [List.forall_mem_cons] at h
      rw [List.foldlM_cons, List.foldlM_cons]
      exact (h.1 s).bind fun t _ => ih h.2 t

end Extends

end Hornet.Lib
