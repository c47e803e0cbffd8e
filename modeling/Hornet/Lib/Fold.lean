/-!
Loops that may fail. A loop over a list in `Except` is reasoned about by an
invariant indexed by the part of the list that is done.
-/

namespace Hornet.Lib

variable {ε σ α β : Type}

theorem bind_eq_ok {x : Except ε α} {f : α → Except ε β} {b : β} :
    (x >>= f) = .ok b ↔ ∃ a, x = .ok a ∧ f a = .ok b := by
  cases x with
  | error e => simp [bind, Except.bind]
  | ok a => simp [bind, Except.bind]

theorem exists_ok {x : Except ε α} (h : x.toBool = true) : ∃ a, x = .ok a := by
  cases x with
  | error e => cases h
  | ok a => exact ⟨a, rfl⟩

/-- The computation succeeds with a result that passes the test. -/
def okAnd (x : Except ε α) (p : α → Bool) : Bool :=
  match x with
  | .ok a => p a
  | .error _ => false

theorem okAnd_eq_true {x : Except ε α} {p : α → Bool} (h : okAnd x p = true) :
    ∃ a, x = .ok a ∧ p a = true := by
  cases x with
  | error e => cases h
  | ok a => exact ⟨a, rfl, h⟩

theorem map_eq_ok {x : Except ε α} {f : α → β} {b : β} :
    x.map f = .ok b ↔ ∃ a, x = .ok a ∧ f a = b := by
  cases x with
  | error e => simp [Except.map]
  | ok a => simp [Except.map]

theorem ite_eq_ok {p : Prop} [Decidable p] {x y : Except ε β} {b : β}
    (h : (if p then x else y) = .ok b) : (p ∧ x = .ok b) ∨ (¬p ∧ y = .ok b) := by
  by_cases hp : p
  · rw [if_pos hp] at h
    exact .inl ⟨hp, h⟩
  · rw [if_neg hp] at h
    exact .inr ⟨hp, h⟩

theorem length_mapM_ok {f : α → Except ε β} {xs : List α} {ys : List β}
    (h : xs.mapM f = .ok ys) : ys.length = xs.length := by
  induction xs generalizing ys with
  | nil =>
      cases h
      rfl
  | cons x xs ih =>
      rw [List.mapM_cons] at h
      obtain ⟨y, -, h⟩ := bind_eq_ok.mp h
      obtain ⟨ys', hys, h⟩ := bind_eq_ok.mp h
      cases h
      rw [List.length_cons, List.length_cons, ih hys]

/-- A loop whose steps all succeed. -/
theorem mapM_eq_ok_map {f : α → Except ε β} {g : α → β} {xs : List α}
    (h : ∀ x ∈ xs, f x = .ok (g x)) : xs.mapM f = .ok (xs.map g) := by
  induction xs with
  | nil => rfl
  | cons x xs ih =>
      rw [List.mapM_cons, h x (by simp), ih fun y hy => h y (by simp [hy])]
      rfl

/-- What the results of a loop show, read off its values. -/
theorem map_mapM_ok {γ : Type} {f : α → Except ε β} {g : β → γ} {k : α → γ} {xs : List α}
    {ys : List β} (h : xs.mapM f = .ok ys)
    (hpoint : ∀ x ∈ xs, ∀ y ∈ ys, f x = .ok y → g y = k x) : ys.map g = xs.map k := by
  induction xs generalizing ys with
  | nil =>
      cases h
      rfl
  | cons x xs ih =>
      rw [List.mapM_cons] at h
      obtain ⟨y, hy, h⟩ := bind_eq_ok.mp h
      obtain ⟨ys', hys, h⟩ := bind_eq_ok.mp h
      cases h
      rw [List.map_cons, List.map_cons, hpoint x (by simp) y (by simp) hy,
        ih hys fun x' hx' y' hy' => hpoint x' (by simp [hx']) y' (by simp [hy'])]

/-- A loop whose body ends in a pure step. -/
theorem mapM_bind_pure {γ : Type} {g : α → Except ε β} {f : α → β → γ} {xs : List α} {zs : List γ}
    (h : (xs.mapM fun x => do
      let y ← g x
      pure (f x y)) = .ok zs) : ∃ ys, xs.mapM g = .ok ys ∧ zs = List.zipWith f xs ys := by
  induction xs generalizing zs with
  | nil =>
      cases h
      exact ⟨[], rfl, rfl⟩
  | cons x xs ih =>
      rw [List.mapM_cons] at h
      obtain ⟨z, hz, h⟩ := bind_eq_ok.mp h
      obtain ⟨y, hy, hpure⟩ := bind_eq_ok.mp hz
      obtain ⟨zs', hzs, h⟩ := bind_eq_ok.mp h
      cases hpure
      cases h
      obtain ⟨ys, hys, rfl⟩ := ih hzs
      refine ⟨y :: ys, ?_, rfl⟩
      rw [List.mapM_cons, hy, hys]
      rfl

/-- Loops whose rounds do the same. -/
theorem foldlM_congr {m : Type → Type} [Monad m] {f g : σ → α → m σ} {xs : List α}
    (h : ∀ s, ∀ x ∈ xs, f s x = g s x) (s : σ) : xs.foldlM f s = xs.foldlM g s := by
  induction xs generalizing s with
  | nil => rfl
  | cons x xs ih =>
      rw [List.foldlM_cons, List.foldlM_cons, h s x (by simp)]
      exact bind_congr fun t => ih (fun t y hy => h t y (by simp [hy])) t

theorem mapM_congr {f g : α → Except ε β} {xs : List α} (h : ∀ x ∈ xs, f x = g x) :
    xs.mapM f = xs.mapM g := by
  induction xs with
  | nil => rfl
  | cons x xs ih =>
      rw [List.mapM_cons, List.mapM_cons, h x (by simp), ih fun y hy => h y (by simp [hy])]

theorem mapM_id_map_some (xs : List α) : (xs.map some).mapM id = some xs := by
  induction xs with
  | nil => rfl
  | cons x xs ih => simp [List.mapM_cons, ih]

/-- A list of present values. -/
theorem exists_mem_of_mapM {f : α → Option β} {xs : List α} {ys : List β} (h : xs.mapM f = some ys) :
    ∀ x ∈ xs, ∃ y ∈ ys, f x = some y := by
  induction xs generalizing ys with
  | nil => exact nofun
  | cons x xs ih =>
      rw [List.mapM_cons] at h
      obtain ⟨z, hz, hrest⟩ := Option.bind_eq_some_iff.mp h
      obtain ⟨zs, hzs, hcons⟩ := Option.bind_eq_some_iff.mp hrest
      obtain rfl := Option.some.inj hcons
      intro x' hx'
      rcases List.mem_cons.mp hx' with rfl | hx'
      · exact ⟨z, by simp, hz⟩
      · obtain ⟨y, hy, heq⟩ := ih hzs x' hx'
        exact ⟨y, by simp [hy], heq⟩

theorem exists_of_mem_mapM {f : α → Option β} {xs : List α} {ys : List β} (h : xs.mapM f = some ys) :
    ∀ y ∈ ys, ∃ x ∈ xs, f x = some y := by
  induction xs generalizing ys with
  | nil =>
      cases h
      exact nofun
  | cons x xs ih =>
      rw [List.mapM_cons] at h
      obtain ⟨z, hz, hrest⟩ := Option.bind_eq_some_iff.mp h
      obtain ⟨zs, hzs, hcons⟩ := Option.bind_eq_some_iff.mp hrest
      obtain rfl := Option.some.inj hcons
      intro y hy
      rcases List.mem_cons.mp hy with rfl | hy
      · exact ⟨x, by simp, hz⟩
      · obtain ⟨x', hx', heq⟩ := ih hzs y hy
        exact ⟨x', by simp [hx'], heq⟩

/-- What holds of all results is asked of the values one by one. -/
theorem forall_mapM_iff {f : α → Option β} {P : β → Prop} {Q : α → Prop} {xs : List α} {ys : List β}
    (h : xs.mapM f = some ys) (hpoint : ∀ x ∈ xs, ∀ y, f x = some y → (P y ↔ Q x)) :
    (∀ y ∈ ys, P y) ↔ ∀ x ∈ xs, Q x := by
  constructor
  · intro hall x hx
    obtain ⟨y, hy, heq⟩ := exists_mem_of_mapM h x hx
    exact (hpoint x hx y heq).mp (hall y hy)
  · intro hall y hy
    obtain ⟨x, hx, heq⟩ := exists_of_mem_mapM h y hy
    exact (hpoint x hx y heq).mpr (hall x hx)

theorem eq_map_of_mapM_id {xs : List (Option α)} {ys : List α} (h : xs.mapM id = some ys) :
    xs = ys.map some := by
  induction xs generalizing ys with
  | nil =>
      cases h
      rfl
  | cons x xs ih =>
      rw [List.mapM_cons] at h
      obtain ⟨x', hx, h⟩ := Option.bind_eq_some_iff.mp h
      obtain ⟨ys', hys, h⟩ := Option.bind_eq_some_iff.mp h
      cases h
      rw [List.map_cons, ← ih hys]
      exact congrArg (· :: xs) hx

/-- A loop with an invariant on the part of the list that is done, where a round also
knows the part that is left. -/
theorem foldlM_split_ok {f : σ → α → Except ε σ} {xs : List α} {s t : σ} (P : List α → σ → Prop)
    (hs : P [] s)
    (hstep : ∀ done x rest s s', xs = done ++ x :: rest → P done s → f s x = .ok s' →
      P (done ++ [x]) s')
    (h : xs.foldlM f s = .ok t) : P xs t := by
  suffices ∀ done rest s, done ++ rest = xs → P done s → rest.foldlM f s = .ok t → P xs t from
    this [] xs s rfl hs h
  intro done rest
  induction rest generalizing done with
  | nil =>
      intro s hdone hP hrun
      obtain rfl : s = t := by simpa [pure, Except.pure] using hrun
      rwa [← hdone, List.append_nil]
  | cons x rest ih =>
      intro s hdone hP hrun
      rw [List.foldlM_cons, bind_eq_ok] at hrun
      obtain ⟨s', hx, hrest⟩ := hrun
      exact ih (done ++ [x]) s' (by simpa using hdone) (hstep done x rest s s' hdone.symm hP hx) hrest

theorem foldlM_ok {f : σ → α → Except ε σ} {xs : List α} {s t : σ} (P : List α → σ → Prop)
    (hs : P [] s)
    (hstep : ∀ done x s s', P done s → x ∈ xs → f s x = .ok s' → P (done ++ [x]) s')
    (h : xs.foldlM f s = .ok t) : P xs t :=
  foldlM_split_ok P hs
    (fun done x _ s s' hxs hP hx => hstep done x s s' hP (by simp [hxs]) hx) h

/-- A loop over the indices below `n`. -/
theorem foldlM_range_ok {f : σ → Nat → Except ε σ} {n : Nat} {s t : σ} (P : Nat → σ → Prop)
    (hs : P 0 s) (hstep : ∀ i s s', i < n → P i s → f s i = .ok s' → P (i + 1) s')
    (h : (List.range n).foldlM f s = .ok t) : P n t := by
  suffices ∀ m ≤ n, ∀ t, (List.range m).foldlM f s = .ok t → P m t from this n (Nat.le_refl n) t h
  intro m
  induction m with
  | zero =>
      intro _ t hrun
      obtain rfl : s = t := by simpa [pure, Except.pure] using hrun
      exact hs
  | succ m ih =>
      intro hm t hrun
      rw [List.range_succ, List.foldlM_append, bind_eq_ok] at hrun
      obtain ⟨u, hu, hlast⟩ := hrun
      have hstep' := hstep m u t (by omega) (ih (by omega) u hu)
      simp only [List.foldlM_cons, List.foldlM_nil, bind_pure] at hlast
      exact hstep' hlast

end Hornet.Lib
