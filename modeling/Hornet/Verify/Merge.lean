import Hornet.Lib.Group
import Hornet.Track.AgreeStep
import Hornet.Verify.Forward

/-!
The merged state at the entry of a block. When one contribution alone has a true
guard, every component of the merged state has the value it has there.
-/

namespace Hornet

open Smt

section Component

variable (I : Identity) {s : Srt}

/-- The guard of a group that gets a second contribution. -/
def orBoth (g h : Guard) : Guard := Guard.orAll [g, h]

theorem insertContrib_eq_addGroup (g : Guard) (t : ZTerm s) (gs : List (ZTerm s × Guard)) :
    insertContrib I g t (gs.map Prod.swap) = (Lib.addGroup I.same orBoth g t gs).map Prod.swap := by
  induction gs with
  | nil => rfl
  | cons x gs ih =>
      obtain ⟨u, h⟩ := x
      simp only [List.map_cons, Prod.swap_prod_mk, insertContrib, Lib.addGroup]
      split
      · rfl
      · rw [List.map_cons, ← ih]
        rfl

theorem foldl_insertContrib (pairs : List (Guard × ZTerm s)) :
    pairs.foldl (fun groups p => insertContrib I p.1 p.2 groups) [] =
      (Lib.groups I.same orBoth (·.1) (·.2) pairs).map Prod.swap := by
  suffices ∀ gs : List (ZTerm s × Guard),
      pairs.foldl (fun groups p => insertContrib I p.1 p.2 groups) (gs.map Prod.swap) =
        (pairs.foldl (fun gs p => Lib.addGroup I.same orBoth p.1 p.2 gs) gs).map Prod.swap from
    this []
  induction pairs with
  | nil => exact fun gs => rfl
  | cons p pairs ih =>
      intro gs
      rw [List.foldl_cons, List.foldl_cons, insertContrib_eq_addGroup, ih]

/-- A merged component has the value of the contribution whose guard is true. -/
theorem eval_mergeComponent (m : ZModel) {pre post : List (Guard × ZTerm s)} {g : Guard}
    {t : ZTerm s} (hg : g.eval m = true) (hpre : ∀ p ∈ pre, p.1.eval m = false)
    (hpost : ∀ p ∈ post, p.1.eval m = false) (dflt : ZTerm s) :
    (mergeComponent I (pre ++ (g, t) :: post) dflt).eval m = t.eval m := by
  have hor : ∀ a b, (orBoth a b).eval m = (a.eval m || b.eval m) := by
    intro a b
    rw [orBoth, Guard.eval_orAll]
    simp
  obtain ⟨rep, before, h, after, hsplit, hh, hbefore, -, hrep, -⟩ :
      ∃ rep, Lib.HoldsAt I.same (Guard.eval m) t rep
        (Lib.groups I.same orBoth (·.1) (·.2) (pre ++ (g, t) :: post)) :=
    Lib.holdsAt_groups hor (e := (g, t)) hg hpre hpost
  have hval : rep.eval m = t.eval m := by
    rcases hrep with rfl | hsame
    · rfl
    · rw [I.sound _ _ hsame]
  unfold mergeComponent
  rw [foldl_insertContrib]
  have hgroups := congrArg (List.map Prod.swap) hsplit
  rw [List.map_append, List.map_cons] at hgroups
  generalize (Lib.groups I.same orBoth (fun p => p.1) (fun p => p.2)
    (pre ++ (g, t) :: post)).map Prod.swap = gs at hgroups ⊢
  cases gs with
  | nil => simp at hgroups
  | cons x xs =>
      refine (eval_ifChain m hgroups hh ?_).trans hval
      intro y hy
      obtain ⟨z, hz, rfl⟩ := List.mem_map.mp hy
      exact hbefore z hz

end Component

section State

variable {maps : List MapInfo} (m : ZModel) (I : Identity) (initSt : Z3State maps)

/-- A component of the merged state is that of the contribution whose guard is true. -/
theorem eval_mergeContribs {s : Srt} {pre post : List (Guard × Z3State maps)} {g : Guard}
    {sigma : Z3State maps} (hg : g.eval m = true) (hpre : ∀ c ∈ pre, c.1.eval m = false)
    (hpost : ∀ c ∈ post, c.1.eval m = false) (f : Z3State maps → ZTerm s) (dflt : ZTerm s) :
    (mergeComponent I ((pre ++ (g, sigma) :: post).map fun c => (c.1, f c.2)) dflt).eval m =
      (f sigma).eval m := by
  rw [List.map_append, List.map_cons]
  apply eval_mergeComponent I m hg
  · intro p hp
    obtain ⟨c, hc, rfl⟩ := List.mem_map.mp hp
    exact hpre c hc
  · intro p hp
    obtain ⟨c, hc, rfl⟩ := List.mem_map.mp hp
    exact hpost c hc

/-- The arrays of a map are merged from those of the contribution whose guard is true. -/
theorem eval_mergeSigma_map {pre post : List (Guard × Z3State maps)} {g : Guard}
    {sigma : Z3State maps} (hg : g.eval m = true) (hpre : ∀ c ∈ pre, c.1.eval m = false)
    (hpost : ∀ c ∈ post, c.1.eval m = false) (i : Nat) :
    ((mergeSigma I initSt (pre ++ (g, sigma) :: post)).map i).present.eval m =
        (sigma.map i).present.eval m ∧
      ((mergeSigma I initSt (pre ++ (g, sigma) :: post)).map i).value.eval m =
        (sigma.map i).value.eval m := by
  have hmerge : ∀ {s : Srt} (f : Z3State maps → ZTerm s) (dflt : ZTerm s),
      (mergeComponent I ((pre ++ (g, sigma) :: post).map fun c => (c.1, f c.2)) dflt).eval m =
        (f sigma).eval m := eval_mergeContribs m I hg hpre hpost
  obtain ⟨cs, hcs⟩ : ∃ cs, cs = pre ++ (g, sigma) :: post := ⟨_, rfl⟩
  rw [← hcs] at hmerge ⊢
  unfold mergeSigma
  split
  · simp at hcs
  · rename_i h sigma'
    have hmem : (g, sigma) ∈ [(h, sigma')] := hcs ▸ by simp
    obtain ⟨-, rfl⟩ := Prod.mk.inj (List.mem_singleton.mp hmem)
    exact ⟨rfl, rfl⟩
  · exact ⟨hmerge (fun s => (s.map i).present) _, hmerge (fun s => (s.map i).value) _⟩

/-- The merged state agrees with the contribution whose guard is true. The two
interface indices never change, so they are taken from the initial state. -/
theorem mergeSigma_agree {pre post : List (Guard × Z3State maps)} {g : Guard}
    {sigma : Z3State maps} (hg : g.eval m = true) (hpre : ∀ c ∈ pre, c.1.eval m = false)
    (hpost : ∀ c ∈ post, c.1.eval m = false) (hingress : sigma.ingress = initSt.ingress)
    (hegress : sigma.egress = initSt.egress) :
    (mergeSigma I initSt (pre ++ (g, sigma) :: post)).Agree m sigma := by
  have hmerge : ∀ {s : Srt} (f : Z3State maps → ZTerm s) (dflt : ZTerm s),
      (mergeComponent I ((pre ++ (g, sigma) :: post).map fun c => (c.1, f c.2)) dflt).eval m =
        (f sigma).eval m := eval_mergeContribs m I hg hpre hpost
  obtain ⟨cs, hcs⟩ : ∃ cs, cs = pre ++ (g, sigma) :: post := ⟨_, rfl⟩
  rw [← hcs] at hmerge ⊢
  unfold mergeSigma
  split
  · simp at hcs
  · rename_i h sigma'
    have hmem : (g, sigma) ∈ [(h, sigma')] := hcs ▸ by simp
    obtain ⟨-, rfl⟩ := Prod.mk.inj (List.mem_singleton.mp hmem)
    exact .refl _
  · refine ⟨hmerge _ _, fun i => hmerge (fun s => (s.map i).present) _,
      fun i => hmerge (fun s => (s.map i).value) _, fun k => ?_, hmerge _ _, hmerge _ _, ?_, ?_⟩
    · cases k with
      | none => rfl
      | some k =>
          by_cases hany : (cs.any fun c => (c.2.bss k).isSome) = true
          · have hbss := hmerge (fun s => bssOf s (some k)) (bssOf initSt (some k))
            simpa [bssOf, hany] using hbss
          · have hmem : (g, sigma) ∈ cs := hcs ▸ by simp
            have hnone : sigma.bss k = none := by
              simp only [List.any_eq_true, not_exists, not_and, Bool.not_eq_true,
                Option.isSome_eq_false_iff, Option.isNone_iff_eq_none] at hany
              exact hany _ hmem
            simp [bssOf, hany, hnone]
    · rw [hingress]
    · rw [hegress]

end State

end Hornet
