import Mathlib.Logic.Relation
import Mathlib.Order.WellFounded

/-!
What a thing depends on. `Sound` says that nothing `bad` is among what an element depends on,
directly or through others; a property that each element has exactly if it is not bad itself
and all its direct needs have it is this one.
-/

namespace Hornet.Lib

variable {α σ : Type} (needs : α → List α) (bad : α → Prop)

/-- `y` is `x`, or something that `x` needs depends on it. -/
def DependsOn : α → α → Prop := Relation.ReflTransGen fun x y => y ∈ needs x

/-- Nothing that the element depends on is bad. -/
def Sound (x : α) : Prop := ∀ y, DependsOn needs x y → ¬ bad y

variable {needs bad}

theorem sound_iff {x : α} : Sound needs bad x ↔ ¬ bad x ∧ ∀ y ∈ needs x, Sound needs bad y := by
  constructor
  · intro h
    exact ⟨h x .refl, fun y hy z hz => h z (.head hy hz)⟩
  · rintro ⟨hx, hneeds⟩ z hz
    rcases Relation.ReflTransGen.cases_head hz with rfl | ⟨y, hy, hyz⟩
    · exact hx
    · exact hneeds y hy z hyz

/-- A property, in any circumstances `s`, that an element has if it is not bad and whatever it
needs has the property. -/
theorem iff_sound (P : σ → α → Prop) (hwf : WellFounded fun y x => y ∈ needs x)
    (hstep : ∀ s x, (∀ y ∈ needs x, ∀ t, P t y ↔ Sound needs bad y) →
      (P s x ↔ ¬ bad x ∧ ∀ y ∈ needs x, Sound needs bad y)) (s : σ) (x : α) :
    P s x ↔ Sound needs bad x := by
  induction x using hwf.induction generalizing s with
  | _ x ih =>
      rw [sound_iff]
      exact hstep s x fun y hy t => ih y hy t

section Search

variable (needs) (bad : α → Bool)

/-- A search for something bad among what an element depends on, `fuel` needs deep. -/
def searchSound : Nat → α → Bool
  | 0, _ => false
  | fuel + 1, x => !bad x && (needs x).all (searchSound fuel)

variable {needs bad}

theorem sound_of_searchSound {fuel : Nat} {x : α} (h : searchSound needs bad fuel x = true) :
    Sound needs (bad · = true) x := by
  induction fuel generalizing x with
  | zero => cases h
  | succ fuel ih =>
      unfold searchSound at h
      rw [Bool.and_eq_true, Bool.not_eq_true', List.all_eq_true] at h
      exact sound_iff.mpr ⟨Bool.eq_false_iff.mp h.1, fun y hy => ih (h.2 y hy)⟩

end Search

end Hornet.Lib
