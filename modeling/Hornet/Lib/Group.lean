import Mathlib.Data.List.Nodup

/-!
Grouping of guarded alternatives. Alternatives of equal value share a group, which
holds when one of its alternatives does. When one alternative alone holds, the
group that takes it is the only one that holds, and it is represented by the
first value that equals the alternative's.
-/

namespace Hornet.Lib

variable {α γ ι : Type}

/-- Adds an alternative to the first group whose representative equals its value,
or opens a new group. -/
def addGroup (eq : α → α → Bool) (join : γ → γ → γ) (g : γ) (a : α) : List (α × γ) → List (α × γ)
  | [] => [(a, g)]
  | (b, h) :: gs => if eq b a then (b, join h g) :: gs else (b, h) :: addGroup eq join g a gs

/-- The groups of a list of alternatives, in order of first occurrence. -/
def groups (eq : α → α → Bool) (join : γ → γ → γ) (guard : ι → γ) (value : ι → α) (items : List ι) :
    List (α × γ) :=
  items.foldl (fun gs x => addGroup eq join (guard x) (value x) gs) []

/-- No group holds. -/
def NoneHolds (holds : γ → Bool) (gs : List (α × γ)) : Prop := ∀ g ∈ gs, holds g.2 = false

/-- One group holds, represented by `rep`, which is `a` or the first value that
equals `a`. -/
def HoldsAt (eq : α → α → Bool) (holds : γ → Bool) (a rep : α) (gs : List (α × γ)) : Prop :=
  ∃ pre g post, gs = pre ++ (rep, g) :: post ∧ holds g = true ∧ NoneHolds holds pre ∧
    NoneHolds holds post ∧ (rep = a ∨ eq rep a = true) ∧ ∀ x ∈ pre, eq x.1 a = false

variable {eq : α → α → Bool} {join : γ → γ → γ} {holds : γ → Bool}
  (hjoin : ∀ g h, holds (join g h) = (holds g || holds h))

include hjoin

theorem noneHolds_add {g : γ} (hg : holds g = false) (b : α) {gs : List (α × γ)}
    (h : NoneHolds holds gs) : NoneHolds holds (addGroup eq join g b gs) := by
  induction gs with
  | nil =>
      intro x hx
      obtain rfl := List.mem_singleton.mp hx
      exact hg
  | cons y gs ih =>
      have hy := h y (by simp)
      have hgs : NoneHolds holds gs := fun x hx => h x (by simp [hx])
      intro x hx
      unfold addGroup at hx
      split at hx
      · rcases List.mem_cons.mp hx with rfl | hx
        · rw [hjoin, hy, hg]
          rfl
        · exact hgs x hx
      · rcases List.mem_cons.mp hx with rfl | hx
        · exact hy
        · exact ih hgs x hx

theorem holdsAt_add_holding {g : γ} (hg : holds g = true) (a : α) {gs : List (α × γ)} (h : NoneHolds holds gs) :
    ∃ rep, HoldsAt eq holds a rep (addGroup eq join g a gs) := by
  induction gs with
  | nil => exact ⟨a, [], g, [], rfl, hg, by simp [NoneHolds], by simp [NoneHolds], .inl rfl, by simp⟩
  | cons y gs ih =>
      have hgs : NoneHolds holds gs := fun x hx => h x (by simp [hx])
      unfold addGroup
      split
      · rename_i heq
        refine ⟨y.1, [], join y.2 g, gs, rfl, ?_, by simp [NoneHolds], hgs, .inr heq, by simp⟩
        rw [hjoin, hg, Bool.or_true]
      · rename_i hne
        obtain ⟨rep, pre, k, post, hsplit, hk, hpre, hpost, heq, hfirst⟩ := ih hgs
        refine ⟨rep, y :: pre, k, post, by rw [hsplit]; rfl, hk, ?_, hpost, heq, ?_⟩
        · intro x hx
          rcases List.mem_cons.mp hx with rfl | hx
          · exact h _ (by simp)
          · exact hpre x hx
        · intro x hx
          rcases List.mem_cons.mp hx with rfl | hx
          · simpa using hne
          · exact hfirst x hx

theorem holdsAt_add {g : γ} (hg : holds g = false) (b : α) {a rep : α} {gs : List (α × γ)}
    (h : HoldsAt eq holds a rep gs) : HoldsAt eq holds a rep (addGroup eq join g b gs) := by
  obtain ⟨pre, k, post, rfl, hk, hpre, hpost, heq, hfirst⟩ := h
  induction pre with
  | nil =>
      simp only [List.nil_append]
      unfold addGroup
      split
      · refine ⟨[], join k g, post, rfl, ?_, by simp [NoneHolds], hpost, heq, by simp⟩
        rw [hjoin, hk, Bool.true_or]
      · exact ⟨[], k, addGroup eq join g b post, rfl, hk, by simp [NoneHolds],
          noneHolds_add hjoin hg b hpost, heq, by simp⟩
  | cons y pre ih =>
      have hy := hpre y (by simp)
      have hyfirst := hfirst y (by simp)
      rw [List.cons_append]
      unfold addGroup
      split
      · refine ⟨(y.1, join y.2 g) :: pre, k, post, rfl, hk, ?_, hpost, heq, ?_⟩
        · intro x hx
          rcases List.mem_cons.mp hx with rfl | hx
          · rw [hjoin, hy, hg]
            rfl
          · exact hpre x (by simp [hx])
        · intro x hx
          rcases List.mem_cons.mp hx with rfl | hx
          · exact hyfirst
          · exact hfirst x (by simp [hx])
      · obtain ⟨pre', k', post', hsplit, hk', hpre', hpost', -, hfirst'⟩ :=
          ih (fun x hx => hpre x (by simp [hx])) (fun x hx => hfirst x (by simp [hx]))
        refine ⟨y :: pre', k', post', by rw [hsplit]; rfl, hk', ?_, hpost', heq, ?_⟩
        · intro x hx
          rcases List.mem_cons.mp hx with rfl | hx
          · exact hy
          · exact hpre' x hx
        · intro x hx
          rcases List.mem_cons.mp hx with rfl | hx
          · exact hyfirst
          · exact hfirst' x hx

/-- When one alternative holds, so does its group alone. -/
theorem holdsAt_groups {guard : ι → γ} {value : ι → α} {pre post : List ι} {e : ι}
    (he : holds (guard e) = true) (hpre : ∀ x ∈ pre, holds (guard x) = false) (hpost : ∀ x ∈ post, holds (guard x) = false) :
    ∃ rep, HoldsAt eq holds (value e) rep (groups eq join guard value (pre ++ e :: post)) := by
  have hbefore : ∀ (xs : List ι) (gs : List (α × γ)), NoneHolds holds gs →
      (∀ x ∈ xs, holds (guard x) = false) →
      NoneHolds holds (xs.foldl (fun gs x => addGroup eq join (guard x) (value x) gs) gs) := by
    intro xs
    induction xs with
    | nil => exact fun gs h _ => h
    | cons x xs ih =>
        intro gs h hxs
        exact ih _ (noneHolds_add hjoin (hxs x (by simp)) _ h) fun y hy => hxs y (by simp [hy])
  have hafter : ∀ (xs : List ι) (rep : α) (gs : List (α × γ)),
      HoldsAt eq holds (value e) rep gs → (∀ x ∈ xs, holds (guard x) = false) →
      HoldsAt eq holds (value e) rep
        (xs.foldl (fun gs x => addGroup eq join (guard x) (value x) gs) gs) := by
    intro xs rep
    induction xs with
    | nil => exact fun gs h _ => h
    | cons x xs ih =>
        intro gs h hxs
        exact ih _ (holdsAt_add hjoin (hxs x (by simp)) _ h) fun y hy => hxs y (by simp [hy])
  obtain ⟨rep, hrep⟩ := holdsAt_add_holding hjoin he (value e)
    (hbefore pre [] (by simp [NoneHolds]) hpre)
  refine ⟨rep, ?_⟩
  rw [groups, List.foldl_append, List.foldl_cons]
  exact hafter post rep _ hrep hpost

/-- An alternative of the same value joins the group that holds. -/
theorem holdsAt_add_same (g : γ) {a rep : α} (hrefl : eq a a = true) {gs : List (α × γ)}
    (h : HoldsAt eq holds a rep gs) : HoldsAt eq holds a rep (addGroup eq join g a gs) := by
  obtain ⟨pre, k, post, rfl, hk, hpre, hpost, heq, hfirst⟩ := h
  have hrep : eq rep a = true := by
    rcases heq with rfl | heq
    · exact hrefl
    · exact heq
  refine ⟨pre, join k g, post, ?_, ?_, hpre, hpost, heq, hfirst⟩
  · clear hpre
    induction pre with
    | nil => simp [addGroup, hrep]
    | cons y pre ih =>
        have hy := hfirst y (by simp)
        rw [List.cons_append, addGroup, hy, if_neg Bool.false_ne_true,
          ih fun x hx => hfirst x (by simp [hx])]
        rfl
  · rw [hjoin, hk, Bool.true_or]

/-- When all alternatives that hold have one value, its group alone holds. -/
theorem holdsAt_groups_of_value {guard : ι → γ} {value : ι → α} {a : α} (hrefl : eq a a = true)
    {items : List ι} (hex : ∃ x ∈ items, holds (guard x) = true)
    (hall : ∀ x ∈ items, holds (guard x) = true → value x = a) :
    ∃ rep, HoldsAt eq holds a rep (groups eq join guard value items) := by
  suffices ∀ xs : List ι, (∀ x ∈ xs, holds (guard x) = true → value x = a) → ∀ gs : List (α × γ),
      (NoneHolds holds gs ∧ (∃ x ∈ xs, holds (guard x) = true)) ∨
        (∃ rep, HoldsAt eq holds a rep gs) →
      ∃ rep, HoldsAt eq holds a rep
        (xs.foldl (fun gs x => addGroup eq join (guard x) (value x) gs) gs) from
    this items hall [] (.inl ⟨by simp [NoneHolds], hex⟩)
  intro xs
  induction xs with
  | nil =>
      rintro - gs (⟨-, x, hx, -⟩ | h)
      · cases hx
      · exact h
  | cons x xs ih =>
      intro hall gs hgs
      apply ih fun y hy => hall y (by simp [hy])
      cases hx : holds (guard x) with
      | false =>
          rcases hgs with ⟨hnone, y, hy, hholds⟩ | ⟨rep, hrep⟩
          · rcases List.mem_cons.mp hy with rfl | hy
            · rw [hx] at hholds
              cases hholds
            · exact .inl ⟨noneHolds_add hjoin hx _ hnone, y, hy, hholds⟩
          · exact .inr ⟨rep, holdsAt_add hjoin hx _ hrep⟩
      | true =>
          dsimp only
          rw [hall x (by simp) hx]
          rcases hgs with ⟨hnone, -⟩ | ⟨rep, hrep⟩
          · exact .inr (holdsAt_add_holding hjoin hx a hnone)
          · exact .inr ⟨rep, holdsAt_add_same hjoin _ hrefl hrep⟩

omit hjoin

theorem rep_addGroup {g : γ} {a : α} {gs : List (α × γ)} {x : α × γ}
    (h : x ∈ addGroup eq join g a gs) : x.1 = a ∨ ∃ y ∈ gs, y.1 = x.1 := by
  induction gs with
  | nil => exact .inl (by simp [List.mem_singleton.mp h])
  | cons y gs ih =>
      unfold addGroup at h
      split at h
      · rcases List.mem_cons.mp h with rfl | h
        · exact .inr ⟨y, by simp, rfl⟩
        · exact .inr ⟨x, by simp [h], rfl⟩
      · rcases List.mem_cons.mp h with rfl | h
        · exact .inr ⟨_, by simp, rfl⟩
        · rcases ih h with ha | ⟨z, hz, hzx⟩
          · exact .inl ha
          · exact .inr ⟨z, by simp [hz], hzx⟩

/-- Groups are represented by values of alternatives. -/
theorem rep_of_mem_groups {guard : ι → γ} {value : ι → α} {items : List ι} {x : α × γ}
    (h : x ∈ groups eq join guard value items) : ∃ y ∈ items, value y = x.1 := by
  suffices ∀ (xs : List ι) (gs : List (α × γ)),
      x ∈ xs.foldl (fun gs y => addGroup eq join (guard y) (value y) gs) gs →
      (∃ y ∈ xs, value y = x.1) ∨ ∃ z ∈ gs, z.1 = x.1 by
    rcases this items [] h with hx | ⟨z, hz, -⟩
    · exact hx
    · cases hz
  intro xs
  induction xs with
  | nil => exact fun gs hx => .inr ⟨x, hx, rfl⟩
  | cons y ys ih =>
      intro gs hx
      rcases ih _ hx with ⟨z, hz, hzx⟩ | ⟨z, hz, hzx⟩
      · exact .inl ⟨z, by simp [hz], hzx⟩
      · rcases rep_addGroup hz with ha | ⟨w, hw, hwz⟩
        · exact .inl ⟨y, by simp, ha.symm.trans hzx⟩
        · exact .inr ⟨w, hw, hwz.trans hzx⟩

/-- The representative is the first value of a group that equals the alternative's. -/
theorem HoldsAt.find? {a rep : α} {gs : List (α × γ)} (h : HoldsAt eq holds a rep gs)
    (hrefl : eq a a = true) : (gs.map (·.1)).find? (eq · a) = some rep := by
  obtain ⟨pre, k, post, rfl, -, -, -, hrep, hfirst⟩ := h
  have heq : eq rep a = true := by
    rcases hrep with rfl | heq
    · exact hrefl
    · exact heq
  rw [List.map_append, List.map_cons, List.find?_append, List.find?_cons]
  have hnone : (pre.map (·.1)).find? (eq · a) = none := by
    rw [List.find?_eq_none]
    intro x hx
    obtain ⟨g, hg, rfl⟩ := List.mem_map.mp hx
    simp [hfirst g hg]
  rw [hnone, heq]
  rfl

section Sole

variable {α β ι : Type} {p : α → Bool} {x : α}

/-- `x` stands in the list and is its only element that holds. -/
def Sole (p : α → Bool) (x : α) (xs : List α) : Prop :=
  ∃ pre post, xs = pre ++ x :: post ∧ p x = true ∧ (∀ y ∈ pre, p y = false) ∧
    ∀ y ∈ post, p y = false

theorem sole_singleton (h : p x = true) : Sole p x [x] := ⟨[], [], rfl, h, by simp, by simp⟩

theorem Sole.append_left {xs : List α} (h : Sole p x xs) {ys : List α} (hys : ∀ y ∈ ys, p y = false) :
    Sole p x (ys ++ xs) := by
  obtain ⟨pre, post, rfl, hx, hpre, hpost⟩ := h
  refine ⟨ys ++ pre, post, by simp, hx, fun y hy => ?_, hpost⟩
  rcases List.mem_append.mp hy with hy | hy
  · exact hys y hy
  · exact hpre y hy

theorem Sole.append_right {xs : List α} (h : Sole p x xs) {ys : List α}
    (hys : ∀ y ∈ ys, p y = false) : Sole p x (xs ++ ys) := by
  obtain ⟨pre, post, rfl, hx, hpre, hpost⟩ := h
  refine ⟨pre, post ++ ys, by simp, hx, hpre, fun y hy => ?_⟩
  rcases List.mem_append.mp hy with hy | hy
  · exact hpost y hy
  · exact hys y hy

theorem Sole.filter {xs : List α} (h : Sole p x xs) {keep : α → Bool} (hx : keep x = true) :
    Sole p x (xs.filter keep) := by
  obtain ⟨pre, post, rfl, hpx, hpre, hpost⟩ := h
  refine ⟨pre.filter keep, post.filter keep, by simp [hx], hpx, fun y hy => ?_, fun y hy => ?_⟩
  · exact hpre y (List.mem_of_mem_filter hy)
  · exact hpost y (List.mem_of_mem_filter hy)

theorem Sole.map {f : α → β} {q : β → Bool} (hq : ∀ y, q (f y) = p y) {xs : List α}
    (h : Sole p x xs) : Sole q (f x) (xs.map f) := by
  obtain ⟨pre, post, rfl, hpx, hpre, hpost⟩ := h
  refine ⟨pre.map f, post.map f, by simp, (hq x).trans hpx, fun y hy => ?_, fun y hy => ?_⟩
  · obtain ⟨z, hz, rfl⟩ := List.mem_map.mp hy
    exact (hq z).trans (hpre z hz)
  · obtain ⟨z, hz, rfl⟩ := List.mem_map.mp hy
    exact (hq z).trans (hpost z hz)

/-- One part of a list of parts has the only element that holds. -/
theorem sole_flatMap {xs : List ι} (hnodup : xs.Nodup) {f : ι → List α} {i : ι} (hi : i ∈ xs)
    (hsole : Sole p x (f i)) (hrest : ∀ j ∈ xs, j ≠ i → ∀ y ∈ f j, p y = false) :
    Sole p x (xs.flatMap f) := by
  obtain ⟨l, r, rfl⟩ := List.append_of_mem hi
  have hdisjoint := (List.nodup_middle.mp hnodup).notMem
  have hpart : ∀ j ∈ l ++ r, ∀ y ∈ f j, p y = false := by
    intro j hj
    refine hrest j ?_ fun hji => hdisjoint (hji ▸ hj)
    rcases List.mem_append.mp hj with hj | hj
    · exact List.mem_append_left _ hj
    · exact List.mem_append_right _ (List.mem_cons_of_mem _ hj)
  rw [List.flatMap_append, List.flatMap_cons]
  refine Sole.append_left (hsole.append_right ?_) ?_
  · intro y hy
    obtain ⟨j, hj, hy⟩ := List.mem_flatMap.mp hy
    exact hpart j (List.mem_append_right _ hj) y hy
  · intro y hy
    obtain ⟨j, hj, hy⟩ := List.mem_flatMap.mp hy
    exact hpart j (List.mem_append_left _ hj) y hy

theorem Sole.any {xs : List α} (h : Sole p x xs) : xs.any p = true := by
  obtain ⟨pre, post, rfl, hx, -, -⟩ := h
  simp [hx]

end Sole

end Hornet.Lib
