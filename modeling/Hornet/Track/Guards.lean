import Hornet.Track.Encode

/-!
The meaning of guards and of chains of guarded terms. A chain gives the term of
the first guard that is true, or its last term; when one guard is true it gives
the term of that guard, wherever it stands.
-/

namespace Hornet

open Smt

section Guards

variable (m : ZModel)

@[simp] theorem Guard.eval_tt : Guard.tt.eval m = true := rfl

@[simp] theorem Guard.eval_ff : Guard.ff.eval m = false := rfl

@[simp] theorem Guard.eval_term (t : ZTerm .bool) : (Guard.term t).eval m = t.eval m := rfl

theorem Guard.eval_and (a b : Guard) : (a.and b).eval m = (a.eval m && b.eval m) := by
  cases a <;> cases b <;> simp [Guard.and]

theorem Guard.eval_not (a : Guard) : a.not.eval m = !a.eval m := by
  cases a <;> simp [Guard.not]

theorem Guard.eval_orTerms (t : ZTerm .bool) (ts : List (ZTerm .bool)) :
    (Guard.orTerms t ts).eval m = (t :: ts).any (·.eval m) := by
  induction ts generalizing t with
  | nil => simp [Guard.orTerms]
  | cons u us ih =>
      rw [Guard.orTerms, Term.eval_or, ih]
      rfl

theorem Guard.any_filterMap_term {gs : List Guard} (h : gs.any (· = .tt) = false) :
    (gs.filterMap Guard.term?).any (·.eval m) = gs.any (·.eval m) := by
  induction gs with
  | nil => rfl
  | cons g gs ih =>
      rw [List.any_cons, Bool.or_eq_false_iff] at h
      have hrest := ih h.2
      cases g with
      | tt => simp at h
      | ff => simpa [Guard.term?] using hrest
      | term t => simp [Guard.term?, hrest]

theorem Guard.eval_orAll (gs : List Guard) : (Guard.orAll gs).eval m = gs.any (·.eval m) := by
  unfold Guard.orAll
  cases htt : gs.any (· = .tt) with
  | true =>
      obtain ⟨g, hg, heq⟩ := List.any_eq_true.mp htt
      have hg' : gs.any (·.eval m) = true :=
        List.any_eq_true.mpr ⟨g, hg, by rw [of_decide_eq_true heq]; rfl⟩
      rw [hg']
      rfl
  | false =>
      rw [← Guard.any_filterMap_term m htt]
      cases gs.filterMap Guard.term? with
      | nil => rfl
      | cons t ts => exact Guard.eval_orTerms m t ts

/-- A disjunction is known to be false when each guard is. -/
theorem Guard.orAll_eq_ff {gs : List Guard} : Guard.orAll gs = .ff ↔ ∀ g ∈ gs, g = .ff := by
  unfold Guard.orAll
  constructor
  · intro h g hg
    split at h
    · cases h
    · rename_i hnone
      split at h
      · rename_i hterms
        have hterm := List.filterMap_eq_nil_iff.mp hterms g hg
        cases g with
        | tt => exact absurd (List.any_eq_true.mpr ⟨_, hg, decide_eq_true rfl⟩) hnone
        | ff => rfl
        | term t => cases hterm
      · cases h
  · intro h
    have hnone : gs.any (· = .tt) = false := by
      rw [List.any_eq_false]
      intro g hg
      rw [h g hg]
      decide
    have hterms : gs.filterMap Guard.term? = [] := by
      rw [List.filterMap_eq_nil_iff]
      intro g hg
      rw [h g hg]
      rfl
    rw [hnone, hterms]
    rfl

theorem Guard.eval_ite {s : Srt} (g : Guard) (t e : ZTerm s) :
    (g.ite t e).eval m = if g.eval m then t.eval m else e.eval m := by
  cases g <;> rfl

/-- A chain in which only the guard of `t` is true. -/
theorem eval_ifChain {s : Srt} {x : Guard × ZTerm s} {xs pre post : List (Guard × ZTerm s)}
    {g : Guard} {t : ZTerm s} (hsplit : x :: xs = pre ++ (g, t) :: post) (hg : g.eval m = true)
    (hpre : ∀ y ∈ pre, y.1.eval m = false) : (ifChain x xs).eval m = t.eval m := by
  induction xs generalizing x pre with
  | nil =>
      cases pre with
      | nil =>
          obtain ⟨rfl, -⟩ := List.cons.inj hsplit
          rfl
      | cons p pre => simp at hsplit
  | cons y ys ih =>
      obtain ⟨gx, tx⟩ := x
      rw [ifChain, Guard.eval_ite]
      cases pre with
      | nil =>
          obtain ⟨heq, -⟩ := List.cons.inj hsplit
          obtain ⟨rfl, rfl⟩ := Prod.mk.inj heq
          rw [if_pos hg]
      | cons p pre =>
          obtain ⟨heq, htail⟩ := List.cons.inj hsplit
          have hfalse : gx.eval m = false := hpre (gx, tx) (by simp [heq])
          rw [hfalse, if_neg (by decide)]
          exact ih htail fun z hz => hpre z (List.mem_cons_of_mem p hz)

end Guards

end Hornet
