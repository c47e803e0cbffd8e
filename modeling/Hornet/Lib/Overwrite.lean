import Hornet.Lib.Fold
import Mathlib.Data.List.Flatten
import Mathlib.Data.List.Sort

/-!
A cell that is written over and over. What stands in it after some writes is what the last
of them that reaches it leaves, and writes that do not reach it can be left out.
-/

namespace Hornet.Lib

section Overwrite

variable {α β γ ε : Type} {left : α → Option β} {xs : List α}

/-- The cell after the writes `xs`, one after the other; `left` is what a write leaves. -/
def overwrite (left : α → Option β) (v : β) (xs : List α) : β :=
  xs.foldl (fun v x => (left x).getD v) v

@[simp] theorem overwrite_nil (v : β) : overwrite left v [] = v := rfl

@[simp] theorem overwrite_cons (v : β) (x : α) (xs : List α) :
    overwrite left v (x :: xs) = overwrite left ((left x).getD v) xs := rfl

theorem overwrite_append (v : β) (xs ys : List α) :
    overwrite left v (xs ++ ys) = overwrite left (overwrite left v xs) ys := List.foldl_append

/-- Writes that do not reach the cell make no difference. -/
theorem overwrite_filter (p : α → Bool) (v : β) (h : ∀ x ∈ xs, p x = false → left x = none) :
    overwrite left v (xs.filter p) = overwrite left v xs := by
  induction xs generalizing v with
  | nil => rfl
  | cons x xs ih =>
      have hrest : ∀ y ∈ xs, p y = false → left y = none :=
        fun y hy => h y (List.mem_cons_of_mem x hy)
      cases hx : p x with
      | true => rw [List.filter_cons_of_pos hx, overwrite_cons, overwrite_cons, ih _ hrest]
      | false =>
          rw [List.filter_cons_of_neg (by simp [hx]), overwrite_cons,
            h x List.mem_cons_self hx, Option.getD_none, ih v hrest]

theorem overwrite_congr {f : α → Option β} (v : β) (h : ∀ x ∈ xs, left x = f x) :
    overwrite left v xs = overwrite f v xs := by
  induction xs generalizing v with
  | nil => rfl
  | cons x xs ih =>
      rw [overwrite_cons, overwrite_cons, h x List.mem_cons_self,
        ih _ fun y hy => h y (List.mem_cons_of_mem x hy)]

/-- A loop that may fail, each step of which writes the cell that `f` reads. -/
theorem read_foldlM {f : γ → β} {step : γ → α → Except ε γ}
    (hstep : ∀ x ∈ xs, ∀ t t', step t x = .ok t' → f t' = (left x).getD (f t)) {t t' : γ}
    (h : xs.foldlM step t = .ok t') : f t' = overwrite left (f t) xs := by
  induction xs generalizing t with
  | nil =>
      cases h
      rfl
  | cons x xs ih =>
      obtain ⟨u, hu, h⟩ := bind_eq_ok.mp h
      rw [ih (fun y hy => hstep y (List.mem_cons_of_mem x hy)) h, overwrite_cons,
        hstep x List.mem_cons_self t u hu]

/-- What a step leaves in the cell that `f` reads stands there at the end if no later step
reaches it. -/
theorem foldlM_last {f : γ → β} {step : γ → α → Except ε γ} {done rest : List α} {x : α} {v : β}
    (hx : ∀ t t', step t x = .ok t' → f t' = v)
    (hrest : ∀ y ∈ rest, ∀ t t', step t y = .ok t' → f t' = f t) {t t' : γ}
    (h : (done ++ x :: rest).foldlM step t = .ok t') : f t' = v := by
  rw [List.foldlM_append] at h
  obtain ⟨t₁, -, h⟩ := bind_eq_ok.mp h
  rw [List.foldlM_cons] at h
  obtain ⟨t₂, ht₂, h⟩ := bind_eq_ok.mp h
  rw [← hx t₁ t₂ ht₂]
  exact foldlM_ok (fun _ t => f t = f t₂) rfl (fun _ y t t' ht hy hstep =>
    (hrest y hy t t' hstep).trans ht) h

end Overwrite

section Ascending

variable {α : Type} {path : List Nat} {n : Nat}

/-- The members of an ascending list, met again when counting up. -/
theorem filter_range_of_ascending (hpath : path.Pairwise (· < ·)) (hn : ∀ c ∈ path, c < n) :
    (List.range n).filter (· ∈ path) = path := by
  refine List.Subset.antisymm_of_pairwise (List.pairwise_lt_range.filter _) hpath ?_ ?_
  · intro c hc
    simpa using (List.mem_filter.mp hc).2
  · intro c hc
    exact List.mem_filter.mpr ⟨List.mem_range.mpr (hn c hc), by simpa using hc⟩

theorem flatMap_filter_of_nil {β : Type} {f : β → List α} {p : β → Bool} {xs : List β}
    (h : ∀ x ∈ xs, p x = false → f x = []) : (xs.filter p).flatMap f = xs.flatMap f := by
  induction xs with
  | nil => rfl
  | cons x xs ih =>
      have hrest := ih fun y hy => h y (List.mem_cons_of_mem x hy)
      cases hx : p x with
      | true => rw [List.filter_cons_of_pos hx, List.flatMap_cons, List.flatMap_cons, hrest]
      | false =>
          rw [List.filter_cons_of_neg (by simp [hx]), List.flatMap_cons, hrest,
            h x List.mem_cons_self hx, List.nil_append]

/-- What is gathered while counting up, if only the members of an ascending list give anything. -/
theorem flatMap_range_of_ascending {f : Nat → List α} (hpath : path.Pairwise (· < ·))
    (hn : ∀ c ∈ path, c < n) (hf : ∀ c < n, c ∉ path → f c = []) :
    (List.range n).flatMap f = path.flatMap f := by
  rw [← flatMap_filter_of_nil (p := (· ∈ path)) fun c hc hout => hf c (List.mem_range.mp hc)
    (by simpa using hout), filter_range_of_ascending hpath hn]

end Ascending

end Hornet.Lib
