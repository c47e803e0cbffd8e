import Hornet.Verify.Order
import Hornet.Lib.BackEdges

/-!
The order and the ancestors on a graph that may have cycles: the search succeeds exactly
when the kept blocks have none, and the ancestors are the blocks on the paths.
-/

namespace Hornet

variable {blocks : List Block} {live order : List Nat}

/-- No live block lies on a cycle of live blocks. -/
def LiveAcyclic (blocks : List Block) (live : List Nat) : Prop :=
  ∀ b ∈ live, ¬ Relation.TransGen (LiveEdge blocks live) b b

section Ranks

open Classical in
/-- The number of live blocks on a path to a block. -/
noncomputable def liveRank (blocks : List Block) (live : List Nat) (b : Nat) : Nat :=
  if b ∈ live then (live.filter fun a => Relation.TransGen (LiveEdge blocks live) a b).length + 1
  else 0

/-- Without cycles, the rank goes up along every edge that the search follows. -/
theorem liveRank_lt (hacyclic : LiveAcyclic blocks live) {a b : Nat}
    (hedge : b ∈ (succsOf blocks a).filter (· ∈ live)) :
    liveRank blocks live a < liveRank blocks live b := by
  classical
  obtain ⟨hstep, hb⟩ := List.mem_filter.mp hedge
  have hb : b ∈ live := by simpa using hb
  unfold liveRank
  rw [if_pos hb]
  split
  · rename_i ha
    have hab : LiveEdge blocks live a b := ⟨ha, hb, hstep⟩
    have hsub : (live.filter fun c => Relation.TransGen (LiveEdge blocks live) c a).Sublist
        (live.filter fun c => Relation.TransGen (LiveEdge blocks live) c b) := by
      apply List.monotone_filter_right
      intro c hc
      simp only [decide_eq_true_eq] at hc ⊢
      exact hc.tail hab
    have hlt := Nat.lt_of_le_of_ne hsub.length_le fun heq => by
      have hlists := hsub.eq_of_length heq
      have hin : a ∈ live.filter fun c => Relation.TransGen (LiveEdge blocks live) c b :=
        List.mem_filter.mpr ⟨ha, by simpa using Relation.TransGen.single hab⟩
      rw [← hlists] at hin
      exact hacyclic a ha (by simpa using (List.mem_filter.mp hin).2)
    omega
  · omega

end Ranks

section Topo

/-- A walk order is closed under live edges, so it has no cycle. -/
theorem WalkOrder.liveAcyclic (h : WalkOrder blocks live order) : LiveAcyclic blocks live := by
  intro b hb hcycle
  have hfinished : ∀ l x r, order = l ++ x :: r →
      ∀ u ∈ (succsOf blocks x).filter (· ∈ live), u ∈ r := by
    intro l x r hsplit u hu
    obtain ⟨hstep, hlive⟩ := List.mem_filter.mp hu
    exact h.later l x r hsplit u hstep (by simpa using hlive)
  apply Lib.not_cycle_of_finished hfinished ((h.mem b).mpr hb)
  have hsub : ∀ a c, LiveEdge blocks live a c → c ∈ (succsOf blocks a).filter (· ∈ live) := by
    rintro a c ⟨-, hc, hstep⟩
    exact List.mem_filter.mpr ⟨hstep, by simpa using hc⟩
  exact Relation.TransGen.mono hsub _ _ hcycle

/-- The live predecessors of a block come before it. -/
theorem WalkOrder.preds (hlinked : WellLinked blocks) (hkept : Kept blocks live)
    (h : WalkOrder blocks live order) {l r : List Nat} {b p : Nat} (hsplit : order = l ++ b :: r)
    (hp : p ∈ predsOf blocks b) (hlive : p ∈ live) : p ∈ l := by
  have hb : b ∈ live := (h.mem b).mp (by simp [hsplit])
  have hlt := (mem_forwardReachable.mp (hkept.live b hb)).2
  have hstep : b ∈ succsOf blocks p := (mem_predsOf hlinked hlt).mp hp
  have hnodup := h.nodup
  have hin : p ∈ order := (h.mem p).mpr hlive
  rw [hsplit] at hin
  rcases List.mem_append.mp hin with hl | hr
  · exact hl
  · -- a block that comes after `b` or is `b` would have `b` after it a second time
    obtain ⟨m, r', hmid⟩ := List.append_of_mem hr
    have hwhole : order = (l ++ m) ++ p :: r' := by rw [hsplit, hmid, List.append_assoc]
    have hafter : b ∈ r' := h.later (l ++ m) p r' hwhole b hstep hb
    have hbr : (b :: r).Nodup := by
      rw [hsplit] at hnodup
      exact hnodup.of_append_right
    cases m with
    | nil =>
        obtain ⟨-, rfl⟩ := List.cons.inj hmid
        exact absurd hafter (List.nodup_cons.mp hbr).1
    | cons c m =>
        obtain ⟨rfl, rfl⟩ := List.cons.inj hmid
        exact absurd (by simp [hafter]) (List.nodup_cons.mp hbr).1

/-- The order exists exactly when the live blocks have no cycle. -/
theorem topoOrder_ok_iff (hlinked : WellLinked blocks) (hkept : Kept blocks live) :
    (∃ order, topoOrder blocks live = .ok order) ↔ LiveAcyclic blocks live := by
  constructor
  · rintro ⟨order, horder⟩
    exact (walkOrder_of_topoOrder hkept horder).liveAcyclic
  · intro hacyclic
    exact topoOrder_ok_of_rank hlinked hkept (liveRank blocks live) fun _ _ hedge =>
      liveRank_lt hacyclic hedge

end Topo

section Ancestors

/-- The ancestors that are known after the first blocks of the order. -/
structure AncestorsOf (blocks : List Block) (live pre : List Nat) (anc : Nat → Option (List Nat)) :
    Prop where
  known : ∀ b, (anc b).isSome ↔ b ∈ pre
  mem : ∀ b s, anc b = some s → ∀ a, a ∈ s ↔ Relation.TransGen (LiveEdge blocks live) a b

/-- One block of the order adds its predecessors and their ancestors. -/
theorem AncestorsOf.step {pre : List Nat} {anc : Nat → Option (List Nat)} {b : Nat}
    (hlinked : WellLinked blocks) (hb : b ∈ live) (hlt : b < blocks.length)
    (hpre : ∀ p ∈ pre, p ∈ live)
    (hpreds : ∀ p ∈ predsOf blocks b, p ∈ live → p ∈ pre) (h : AncestorsOf blocks live pre anc) :
    AncestorsOf blocks live (pre ++ [b])
      (Function.update anc b (some ((predsOf blocks b).flatMap fun p =>
        match anc p with
        | some s => p :: s
        | none => []))) := by
  constructor
  · intro c
    by_cases hc : c = b
    · simp [hc]
    · simp [hc, h.known c]
  · intro c s hs a
    by_cases hc : c = b
    · subst hc
      rw [Function.update_self] at hs
      obtain rfl := Option.some.inj hs
      rw [List.mem_flatMap]
      constructor
      · rintro ⟨p, hp, ha⟩
        cases hanc : anc p with
        | none =>
            rw [hanc] at ha
            cases ha
        | some s =>
            have hlive : p ∈ live := hpre p ((h.known p).mp (by simp [hanc]))
            have hedge : LiveEdge blocks live p c :=
              ⟨hlive, hb, (mem_predsOf hlinked hlt).mp hp⟩
            rw [hanc] at ha
            rcases List.mem_cons.mp ha with rfl | ha
            · exact .single hedge
            · exact ((h.mem p s hanc a).mp ha).tail hedge
      · intro hpath
        obtain ⟨p, hmid, hedge⟩ := Relation.TransGen.tail'_iff.mp hpath
        have hp : p ∈ predsOf blocks c := (mem_predsOf hlinked hlt).mpr hedge.2.2
        obtain ⟨s, hanc⟩ := Option.isSome_iff_exists.mp ((h.known p).mpr (hpreds p hp hedge.1))
        refine ⟨p, hp, ?_⟩
        rw [hanc]
        rcases Relation.reflTransGen_iff_eq_or_transGen.mp hmid with rfl | hmid
        · exact List.mem_cons_self
        · exact List.mem_cons_of_mem _ ((h.mem p s hanc a).mpr hmid)
    · rw [Function.update_of_ne hc] at hs
      exact h.mem c s hs a

/-- Over a walk order, the ancestors of a block are the blocks from which a path of live
blocks leads to it. -/
theorem WalkOrder.ancestors (hlinked : WellLinked blocks) (hkept : Kept blocks live)
    (h : WalkOrder blocks live order) :
    AncestorsOf blocks live order (Hornet.ancestors blocks order) := by
  have hrun : ∀ pre post : List Nat, ∀ anc, order = pre ++ post →
      AncestorsOf blocks live pre anc →
      AncestorsOf blocks live order (post.foldl (fun anc b => Function.update anc b
        (some ((predsOf blocks b).flatMap fun p =>
          match anc p with
          | some s => p :: s
          | none => []))) anc) := by
    intro pre post
    induction post generalizing pre with
    | nil =>
        intro anc hsplit hanc
        rw [List.append_nil] at hsplit
        rw [hsplit]
        exact hanc
    | cons b post ih =>
        intro anc hsplit hanc
        have hsub : ∀ p ∈ pre, p ∈ live := fun p hp => (h.mem p).mp (by simp [hsplit, hp])
        have hb : b ∈ live := (h.mem b).mp (by simp [hsplit])
        have hlt := (mem_forwardReachable.mp (hkept.live b hb)).2
        apply ih (pre ++ [b]) _ (by simp [hsplit])
        apply hanc.step hlinked hb hlt hsub
        intro p hp hlive
        exact h.preds hlinked hkept hsplit hp hlive
  apply hrun [] order (fun _ => none) rfl
  constructor
  · intro b
    simp
  · intro b s hs
    cases hs

end Ancestors

end Hornet
