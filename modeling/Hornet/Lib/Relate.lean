import Hornet.Lib.Fold
import Mathlib.Data.List.Forall2
import Mathlib.Tactic.Common

/-!
Two runs of computations that may fail, side by side. The runs fail alike or end
in related results, and a loop keeps a relation that every round keeps.
-/

namespace Hornet.Lib

variable {ε α β α' β' γ : Type}

/-- Two computations fail with the same error, or their results are related. -/
inductive Related (R : α → β → Prop) : Except ε α → Except ε β → Prop
  | error (e : ε) : Related R (.error e) (.error e)
  | ok {a : α} {b : β} (h : R a b) : Related R (.ok a) (.ok b)

namespace Related

variable {R : α → β → Prop} {S : α' → β' → Prop} {x : Except ε α} {y : Except ε β}

theorem pure {a : α} {b : β} (h : R a b) :
    Related R (Pure.pure a : Except ε α) (Pure.pure b) := .ok h

theorem mono {R' : α → β → Prop} (h : Related R x y) (himp : ∀ a b, R a b → R' a b) :
    Related R' x y := by
  cases h with
  | error e => exact .error e
  | ok h => exact .ok (himp _ _ h)

theorem bind {f : α → Except ε α'} {g : β → Except ε β'} (h : Related R x y)
    (hf : ∀ a b, R a b → Related S (f a) (g b)) : Related S (x >>= f) (y >>= g) := by
  cases h with
  | error e => exact .error e
  | ok h => exact hf _ _ h

theorem refl {R : α → α → Prop} (hR : ∀ a, R a a) (x : Except ε α) : Related R x x := by
  cases x with
  | error e => exact .error e
  | ok a => exact .ok (hR a)

theorem foldlM {f : α → γ → Except ε α} {g : β → γ → Except ε β} (xs : List γ)
    (hstep : ∀ a b, R a b → ∀ x ∈ xs, Related R (f a x) (g b x)) {a : α} {b : β} (h : R a b) :
    Related R (xs.foldlM f a) (xs.foldlM g b) := by
  induction xs generalizing a b with
  | nil => exact .pure h
  | cons x xs ih =>
      rw [List.foldlM_cons, List.foldlM_cons]
      refine bind (hstep a b h x (by simp)) fun a' b' h' => ?_
      exact ih (fun c d hcd y hy => hstep c d hcd y (by simp [hy])) h'

theorem mapM {f : γ → Except ε α} {g : γ → Except ε β} (xs : List γ)
    (h : ∀ x ∈ xs, Related R (f x) (g x)) : Related (List.Forall₂ R) (xs.mapM f) (xs.mapM g) := by
  induction xs with
  | nil => exact .pure .nil
  | cons x xs ih =>
      rw [List.mapM_cons, List.mapM_cons]
      refine (h x (by simp)).bind fun a b hab => ?_
      exact (ih fun y hy => h y (by simp [hy])).bind fun as bs hrest => .pure (.cons hab hrest)

/-- A run that ends has a related run that ends. -/
theorem ok_left {a : α} (h : Related R (.ok a) y) : ∃ b, y = .ok b ∧ R a b := by
  cases h with
  | ok h => exact ⟨_, rfl, h⟩

theorem ok_right {b : β} (h : Related R x (.ok b)) : ∃ a, x = .ok a ∧ R a b := by
  cases h with
  | ok h => exact ⟨_, rfl, h⟩

end Related

/-- A loop that ends, and beside it another one that each of its rounds lets go on. -/
theorem foldlM_beside {f : α → γ → Except ε α} {g : β → γ → Except ε β} {xs : List γ}
    (P : List γ → α → β → Prop) {a a' : α} {b : β} (h : P [] a b)
    (hstep : ∀ done x rest a b a', xs = done ++ x :: rest → P done a b → f a x = .ok a' →
      ∃ b', g b x = .ok b' ∧ P (done ++ [x]) a' b')
    (hrun : xs.foldlM f a = .ok a') : ∃ b', xs.foldlM g b = .ok b' ∧ P xs a' b' := by
  suffices ∀ done rest a b, done ++ rest = xs → P done a b → rest.foldlM f a = .ok a' →
      ∃ b', rest.foldlM g b = .ok b' ∧ P xs a' b' from this [] xs a b rfl h hrun
  intro done rest
  induction rest generalizing done with
  | nil =>
      intro a b hdone hP hrun
      cases hrun
      exact ⟨b, rfl, by rwa [← hdone, List.append_nil]⟩
  | cons x rest ih =>
      intro a b hdone hP hrun
      rw [List.foldlM_cons] at hrun
      cases hx : f a x with
      | error e =>
          rw [hx] at hrun
          cases hrun
      | ok a₁ =>
          rw [hx] at hrun
          obtain ⟨b₁, hb₁, hP₁⟩ := hstep done x rest a b a₁ hdone.symm hP hx
          obtain ⟨b', hb', hP'⟩ := ih (done ++ [x]) a₁ b₁ (by simpa using hdone) hP₁ hrun
          refine ⟨b', ?_, hP'⟩
          rw [List.foldlM_cons, hb₁]
          exact hb'

/-! ## Functions that cannot tell related values apart -/

theorem map_eq_of_rel {R : α → β → Prop} {f : α → γ} {g : β → γ} (hf : ∀ a b, R a b → f a = g b) :
    {o : Option α} → {o' : Option β} → Option.Rel R o o' → o.map f = o'.map g
  | _, _, .none => rfl
  | _, _, .some h => congrArg some (hf _ _ h)

theorem map_eq_of_forall₂ {R : α → β → Prop} {f : α → γ} {g : β → γ}
    (hf : ∀ a b, R a b → f a = g b) {xs : List α} {ys : List β} (h : List.Forall₂ R xs ys) :
    xs.map f = ys.map g := by
  induction h with
  | nil => rfl
  | cons hxy _ ih => rw [List.map_cons, List.map_cons, hf _ _ hxy, ih]

/-- Two runs of loops that both end, and whose rounds keep a relation. -/
theorem foldlM_both {f : α → γ → Except ε α} {g : β → γ → Except ε β} {R : α → β → Prop}
    {xs : List γ} {a a' : α} {b b' : β} (h : R a b)
    (hstep : ∀ x ∈ xs, ∀ a b a' b', R a b → f a x = .ok a' → g b x = .ok b' → R a' b')
    (hf : xs.foldlM f a = .ok a') (hg : xs.foldlM g b = .ok b') : R a' b' := by
  induction xs generalizing a b with
  | nil =>
      cases hf
      cases hg
      exact h
  | cons x xs ih =>
      rw [List.foldlM_cons] at hf hg
      obtain ⟨a₁, ha, hf⟩ := bind_eq_ok.mp hf
      obtain ⟨b₁, hb, hg⟩ := bind_eq_ok.mp hg
      exact ih (hstep x (by simp) a b a₁ b₁ h ha hb)
        (fun y hy => hstep y (List.mem_cons_of_mem x hy)) hf hg

/-! ## Results that may be absent -/

section Option

variable {P Q : Prop} {x x' : Option α}

/-- What is absent stays absent, and what is there stays the same exactly if `P` holds. -/
structure KeptIff (P : Prop) (x x' : Option α) : Prop where
  absent : x = none → x' = none
  kept : ∀ a, x = some a → (x' = some a ↔ P)

namespace KeptIff

theorem none : KeptIff P (none : Option α) none := ⟨fun _ => rfl, nofun⟩

theorem of_eq (h : x' = x) (hP : P) : KeptIff P x x' :=
  ⟨fun hx => h.trans hx, fun _ ha => ⟨fun _ => hP, fun _ => h.trans ha⟩⟩

theorem of_none (h : x' = .none) (hP : ¬P) : KeptIff P x x' :=
  ⟨fun _ => h, fun _ _ => ⟨fun ha => (nomatch h.symm.trans ha), fun hp => absurd hp hP⟩⟩

theorem congr (h : KeptIff P x x') (hPQ : P ↔ Q) : KeptIff Q x x' :=
  ⟨h.absent, fun a ha => (h.kept a ha).trans hPQ⟩

theorem eq (h : KeptIff P x x') (hP : P) : x' = x := by
  cases x with
  | none => exact h.absent rfl
  | some a => exact (h.kept a rfl).mpr hP

/-- Behind one result that both share. -/
theorem bind {y : Option β} {f f' : β → Option α} (h : ∀ b, KeptIff P (f b) (f' b)) :
    KeptIff P (y >>= f) (y >>= f') := by
  cases y with
  | none => exact none
  | some b => exact h b

/-- Two results in a row, of which a third one is made that tells them apart. -/
theorem map₂ {y y' : Option β} {f : α → β → γ} (hx : KeptIff P x x') (hy : KeptIff Q y y')
    (hf : ∀ a b a' b', f a b = f a' b' → a = a' ∧ b = b') :
    KeptIff (P ∧ Q) (x.bind fun a => y.map (f a)) (x'.bind fun a => y'.map (f a)) := by
  cases x with
  | none =>
      rw [hx.absent rfl]
      exact none
  | some a =>
      cases y with
      | none =>
          rw [hy.absent rfl]
          exact ⟨fun _ => by cases x' <;> rfl, nofun⟩
      | some b =>
          refine ⟨nofun, fun c hc => ?_⟩
          cases hc
          rw [← hx.kept a rfl, ← hy.kept b rfl]
          constructor
          · intro h
            obtain ⟨a', ha', h⟩ := Option.bind_eq_some_iff.mp h
            obtain ⟨b', hb', h⟩ := Option.map_eq_some_iff.mp h
            obtain ⟨rfl, rfl⟩ := hf _ _ _ _ h
            exact ⟨ha', hb'⟩
          · rintro ⟨rfl, rfl⟩
            rfl

theorem map₃ {R : Prop} {y y' : Option β} {z z' : Option γ} {δ : Type} {f : α → β → γ → δ}
    (hx : KeptIff P x x') (hy : KeptIff Q y y') (hz : KeptIff R z z')
    (hf : ∀ a b c a' b' c', f a b c = f a' b' c' → a = a' ∧ b = b' ∧ c = c') :
    KeptIff (P ∧ Q ∧ R) (x.bind fun a => y.bind fun b => z.map (f a b))
      (x'.bind fun a => y'.bind fun b => z'.map (f a b)) := by
  have hpair : ∀ (x : Option α) (y : Option β) (z : Option γ),
      (x.bind fun a => y.bind fun b => z.map (f a b)) =
        x.bind fun a => (y.bind fun b => z.map (Prod.mk b)).map fun c => f a c.1 c.2 := by
    intro x y z
    cases x <;> cases y <;> cases z <;> rfl
  rw [hpair, hpair]
  apply hx.map₂ (hy.map₂ hz fun _ _ _ _ heq => Prod.mk.inj heq)
  intro a c a' c' heq
  obtain ⟨ha, hb, hc⟩ := hf _ _ _ _ _ _ heq
  exact ⟨ha, Prod.ext hb hc⟩

theorem map {f : α → β} (h : KeptIff P x x') (hf : ∀ a a', f a = f a' → a = a') :
    KeptIff P (x.map f) (x'.map f) := by
  refine ⟨fun hx => ?_, fun b hb => ?_⟩
  · rw [Option.map_eq_none_iff] at hx ⊢
    exact h.absent hx
  · obtain ⟨a, ha, rfl⟩ := Option.map_eq_some_iff.mp hb
    rw [← h.kept a ha, Option.map_eq_some_iff]
    exact ⟨fun ⟨a', ha', heq⟩ => hf _ _ heq ▸ ha', fun hx' => ⟨a, hx', rfl⟩⟩

theorem mapM_cons_eq (f : α → Option γ) (a : α) (as : List α) :
    (a :: as).mapM f = (f a).bind fun c => (as.mapM f).map (List.cons c) := by
  rw [List.mapM_cons]
  cases f a with
  | none => rfl
  | some c => cases as.mapM f <;> rfl

/-- A list of results. -/
theorem mapM {f : α → Option γ} {g : β → Option γ} {R : α → β → Prop} {as : List α} {bs : List β}
    (h : List.Forall₂ (fun a b => KeptIff (R a b) (f a) (g b)) as bs) :
    KeptIff (List.Forall₂ R as bs) (as.mapM f) (bs.mapM g) := by
  induction h with
  | nil => exact of_eq rfl .nil
  | cons hab _ ih =>
      rw [mapM_cons_eq, mapM_cons_eq]
      exact (hab.map₂ ih fun _ _ _ _ heq => List.cons.inj heq).congr List.forall₂_cons.symm

end KeptIff

/-- A traversal succeeds if it does at each value; what holds there holds of the results. -/
theorem exists_mapM_of_forall {f : α → Option β} {R : α → β → Prop} {xs : List α}
    (h : ∀ x ∈ xs, ∃ y, f x = some y ∧ R x y) :
    ∃ ys, xs.mapM f = some ys ∧ List.Forall₂ R xs ys := by
  induction xs with
  | nil => exact ⟨[], rfl, .nil⟩
  | cons x xs ih =>
      obtain ⟨y, hy, hR⟩ := h x List.mem_cons_self
      obtain ⟨ys, hys, hall⟩ := ih fun x hx => h x (List.mem_cons_of_mem _ hx)
      refine ⟨y :: ys, ?_, .cons hR hall⟩
      rw [List.mapM_cons, hy, hys]
      rfl

end Option

end Hornet.Lib
