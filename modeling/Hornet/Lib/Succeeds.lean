import Hornet.Lib.Fold

/-!
When a computation in `Except` succeeds. A sequence of computations succeeds exactly if all
of its parts do.
-/

namespace Hornet.Lib

variable {ε ε' α β : Type}

def Succeeds (x : Except ε α) : Prop := ∃ a, x = .ok a

variable {x : Except ε α}

@[simp]
theorem succeeds_pure (a : α) : Succeeds (pure a : Except ε α) := ⟨a, rfl⟩

@[simp]
theorem succeeds_ok (a : α) : Succeeds (.ok a : Except ε α) := ⟨a, rfl⟩

@[simp]
theorem not_succeeds_throw (e : ε) : ¬ Succeeds (throw e : Except ε α) := nofun

theorem succeeds_bind {f : α → Except ε β} :
    Succeeds (x >>= f) ↔ ∃ a, x = .ok a ∧ Succeeds (f a) := by
  constructor
  · rintro ⟨b, hb⟩
    obtain ⟨a, ha, hfa⟩ := bind_eq_ok.mp hb
    exact ⟨a, ha, b, hfa⟩
  · rintro ⟨a, ha, b, hb⟩
    exact ⟨b, bind_eq_ok.mpr ⟨a, ha, hb⟩⟩

/-- A second part whose success does not depend on the first one's value. -/
theorem succeeds_then {f : α → Except ε β} {p : Prop} (h : ∀ a, x = .ok a → (Succeeds (f a) ↔ p)) :
    Succeeds (x >>= f) ↔ Succeeds x ∧ p := by
  rw [succeeds_bind]
  constructor
  · rintro ⟨a, ha, hfa⟩
    exact ⟨⟨a, ha⟩, (h a ha).mp hfa⟩
  · rintro ⟨⟨a, ha⟩, hp⟩
    exact ⟨a, ha, (h a ha).mpr hp⟩

/-- A last part that cannot fail. -/
theorem succeeds_map {f : α → β} :
    Succeeds (x >>= fun a => (pure (f a) : Except ε β)) ↔ Succeeds x := by
  rw [succeeds_then fun a _ => iff_true_intro (succeeds_pure (f a)), and_true]

theorem succeeds_mapError {f : ε → ε'} : Succeeds (x.mapError f) ↔ Succeeds x := by
  cases x with
  | error e => exact ⟨nofun, nofun⟩
  | ok a => exact ⟨fun _ => ⟨a, rfl⟩, fun _ => ⟨a, rfl⟩⟩

theorem succeeds_mapM {f : α → Except ε β} {xs : List α} :
    Succeeds (xs.mapM f) ↔ ∀ x ∈ xs, Succeeds (f x) := by
  induction xs with
  | nil => exact ⟨fun _ => nofun, fun _ => ⟨[], rfl⟩⟩
  | cons x xs ih =>
      rw [List.mapM_cons, succeeds_then fun _ _ => succeeds_map.trans ih, List.forall_mem_cons]

/-- A loop each of whose rounds succeeds or not whatever the ones before it left. -/
theorem succeeds_foldlM {σ : Type} {f : σ → α → Except ε σ} {P : α → Prop} {xs : List α}
    (h : ∀ x ∈ xs, ∀ s, Succeeds (f s x) ↔ P x) (s : σ) :
    Succeeds (xs.foldlM f s) ↔ ∀ x ∈ xs, P x := by
  induction xs generalizing s with
  | nil => exact ⟨fun _ => nofun, fun _ => ⟨s, rfl⟩⟩
  | cons x xs ih =>
      rw [List.forall_mem_cons] at h
      rw [List.foldlM_cons, succeeds_then fun t _ => ih h.2 t, h.1 s, List.forall_mem_cons]

/-- The computation succeeds with a result. -/
def Delivers (x : Except ε (Option α)) : Prop := ∃ a, x = .ok (some a)

@[simp]
theorem delivers_pure (a : α) : Delivers (pure (some a) : Except ε (Option α)) := ⟨a, rfl⟩

@[simp]
theorem not_delivers_none : ¬ Delivers (pure none : Except ε (Option α)) := nofun

@[simp]
theorem not_delivers_throw (e : ε) : ¬ Delivers (throw e : Except ε (Option α)) := nofun

theorem delivers_bind {f : α → Except ε (Option β)} :
    Delivers (x >>= f) ↔ ∃ a, x = .ok a ∧ Delivers (f a) := by
  constructor
  · rintro ⟨b, hb⟩
    obtain ⟨a, ha, hfa⟩ := bind_eq_ok.mp hb
    exact ⟨a, ha, b, hfa⟩
  · rintro ⟨a, ha, b, hb⟩
    exact ⟨b, bind_eq_ok.mpr ⟨a, ha, hb⟩⟩

theorem delivers_then {f : α → Except ε (Option β)} {p : Prop}
    (h : ∀ a, x = .ok a → (Delivers (f a) ↔ p)) : Delivers (x >>= f) ↔ Succeeds x ∧ p := by
  rw [delivers_bind]
  constructor
  · rintro ⟨a, ha, hfa⟩
    exact ⟨⟨a, ha⟩, (h a ha).mp hfa⟩
  · rintro ⟨⟨a, ha⟩, hp⟩
    exact ⟨a, ha, (h a ha).mpr hp⟩

/-- A second part that needs the result of the first one. -/
theorem delivers_some {x : Except ε (Option α)} {f : Option α → Except ε (Option β)} {p : Prop}
    (hnone : ¬ Delivers (f none)) (h : ∀ a, x = .ok (some a) → (Delivers (f (some a)) ↔ p)) :
    Delivers (x >>= f) ↔ Delivers x ∧ p := by
  rw [delivers_bind]
  constructor
  · rintro ⟨a, ha, hfa⟩
    cases a with
    | none => exact absurd hfa hnone
    | some a => exact ⟨⟨a, ha⟩, (h a ha).mp hfa⟩
  · rintro ⟨⟨a, ha⟩, hp⟩
    exact ⟨some a, ha, (h a ha).mpr hp⟩

/-- A last part that gives a result. -/
theorem delivers_map {f : α → β} :
    Delivers (x >>= fun a => (pure (some (f a)) : Except ε (Option β))) ↔ Succeeds x := by
  rw [delivers_then fun a _ => iff_true_intro (delivers_pure (f a)), and_true]

/-- A loop whose results are all there. -/
theorem mapM_ok_some {f : α → Except ε (Option β)} {xs : List α}
    {ys : List (Option β)} (h : xs.mapM f = .ok ys)
    (hsome : ∀ x ∈ xs, ∀ r, f x = .ok r → r.isSome = true) :
    ∃ ts : List β, ys = ts.map some ∧ ts.length = xs.length := by
  induction xs generalizing ys with
  | nil =>
      cases h
      exact ⟨[], rfl, rfl⟩
  | cons x xs ih =>
      rw [List.mapM_cons] at h
      obtain ⟨y, hy, h⟩ := bind_eq_ok.mp h
      obtain ⟨ys', hys, h⟩ := bind_eq_ok.mp h
      cases h
      obtain ⟨t, rfl⟩ := Option.isSome_iff_exists.mp (hsome x (by simp) y hy)
      obtain ⟨ts, rfl, hlen⟩ := ih hys fun z hz => hsome z (by simp [hz])
      exact ⟨t :: ts, rfl, by rw [List.length_cons, List.length_cons, hlen]⟩

end Hornet.Lib
