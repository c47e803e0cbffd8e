/-!
Readers that reject an input with an error of their own, where errors of the language may
escape from them too.
-/

namespace Hornet.Lib

/-- What is raised: an error of the reader's own, or one of the language. -/
inductive Raised where
  | rejected
  | escaped
  deriving DecidableEq, Repr

variable {α β : Type}

/-- The value; without one the input is rejected. -/
def orReject (o : Option α) : Except Raised α :=
  match o with
  | some a => .ok a
  | none => .error .rejected

/-- The value; without one an error of the language escapes. -/
def orEscape (o : Option α) : Except Raised α :=
  match o with
  | some a => .ok a
  | none => .error .escaped

/-- No error of the language escapes. -/
def Clean (x : Except Raised α) : Prop := x ≠ .error .escaped

section Clean

variable {x : Except Raised α} {f : α → Except Raised β} {o : Option α}

@[simp]
theorem clean_ok (a : α) : Clean (.ok a : Except Raised α) := nofun

@[simp]
theorem clean_pure (a : α) : Clean (pure a : Except Raised α) := nofun

@[simp]
theorem clean_rejected : Clean (throw .rejected : Except Raised α) := nofun

@[simp]
theorem not_clean_escaped : ¬ Clean (throw .escaped : Except Raised α) := fun h => h rfl

@[simp]
theorem clean_orReject (o : Option α) : Clean (orReject o) := by
  cases o <;> nofun

@[simp]
theorem clean_orEscape : Clean (orEscape o) ↔ o.isSome = true := by
  cases o with
  | none => exact ⟨fun h => absurd rfl h, nofun⟩
  | some a => exact ⟨fun _ => rfl, fun _ => nofun⟩

theorem clean_bind : Clean (x >>= f) ↔ Clean x ∧ ∀ a, x = .ok a → Clean (f a) := by
  cases x with
  | error e =>
      constructor
      · intro h
        exact ⟨fun he => h (congrArg _ (Except.error.inj he)), nofun⟩
      · rintro ⟨h, -⟩ he
        exact h (congrArg _ (Except.error.inj he))
  | ok a =>
      constructor
      · intro h
        refine ⟨nofun, fun b hb => ?_⟩
        obtain rfl := Except.ok.inj hb
        exact h
      · rintro ⟨-, h⟩
        exact h a rfl

theorem clean_ite {p : Prop} [Decidable p] {x y : Except Raised α} :
    Clean (if p then x else y) ↔ (p → Clean x) ∧ (¬p → Clean y) := by
  split
  · rename_i hp
    exact ⟨fun h => ⟨fun _ => h, fun hn => absurd hp hn⟩, fun h => h.1 hp⟩
  · rename_i hp
    exact ⟨fun h => ⟨fun hp' => absurd hp' hp, fun _ => h⟩, fun h => h.2 hp⟩

@[simp]
theorem orReject_eq_ok {a : α} : orReject o = .ok a ↔ o = some a := by
  cases o <;> simp [orReject]

@[simp]
theorem orEscape_eq_ok {a : α} : orEscape o = .ok a ↔ o = some a := by
  cases o <;> simp [orEscape]

theorem clean_orReject_bind {f : α → Except Raised β} :
    Clean (orReject o >>= f) ↔ ∀ a, o = some a → Clean (f a) := by
  simp only [clean_bind, clean_orReject, true_and, orReject_eq_ok]

theorem clean_orEscape_bind {f : α → Except Raised β} :
    Clean (orEscape o >>= f) ↔ ∃ a, o = some a ∧ Clean (f a) := by
  cases o with
  | none => exact ⟨fun h => absurd h not_clean_escaped, nofun⟩
  | some a => exact ⟨fun h => ⟨a, rfl, h⟩, fun ⟨_, ha, h⟩ => Option.some.inj ha ▸ h⟩

/-- An optional part that is read if it is there. -/
theorem clean_elim {x : Except Raised β} {f : α → Except Raised β} (hx : Clean x) :
    Clean (o.elim x f) ↔ ∀ a, o = some a → Clean (f a) := by
  cases o with
  | none => exact ⟨fun _ => nofun, fun _ => hx⟩
  | some a =>
      constructor
      · intro h b hb
        obtain rfl := Option.some.inj hb
        exact h
      · intro h
        exact h a rfl

end Clean

section ToOption

variable {x : Except Raised α} {f : α → Except Raised β} {o : Option α}

@[simp]
theorem toOption_pure (a : α) : (pure a : Except Raised α).toOption = some a := rfl

@[simp]
theorem toOption_throw (e : Raised) : (throw e : Except Raised α).toOption = none := rfl

@[simp]
theorem toOption_orReject (o : Option α) : (orReject o).toOption = o := by
  cases o <;> rfl

@[simp]
theorem toOption_orEscape (o : Option α) : (orEscape o).toOption = o := by
  cases o <;> rfl

@[simp]
theorem toOption_bind : (x >>= f).toOption = x.toOption.bind fun a => (f a).toOption := by
  cases x <;> rfl

theorem toOption_ite {p : Prop} [Decidable p] {x y : Except Raised α} :
    (if p then x else y).toOption = if p then x.toOption else y.toOption := by
  split <;> rfl

theorem toOption_elim (o : Option α) (x : Except Raised β) (f : α → Except Raised β) :
    (o.elim x f).toOption = o.elim x.toOption fun a => (f a).toOption := by
  cases o <;> rfl

theorem toOption_eq_some {a : α} : x.toOption = some a ↔ x = .ok a := by
  cases x <;> simp [Except.toOption]

end ToOption

end Hornet.Lib
