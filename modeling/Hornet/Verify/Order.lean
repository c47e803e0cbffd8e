import Hornet.Bpf.Graph
import Hornet.Verify.Prune
import Mathlib.Algebra.Order.BigOperators.Group.List
import Mathlib.Algebra.Order.Group.Nat
import Mathlib.Logic.Relation

/-!
The order of the walk. On an acyclic graph it exists, it lists the blocks that the
walk keeps, each of them once, and no block before one of its predecessors.
-/

namespace Hornet

section Links

variable {blocks : List Block}

theorem mem_succsOf {a b : Nat} : b ∈ succsOf blocks a ↔
    ∃ block, blocks[a]? = some block ∧ (block.succT = some b ∨ block.succF = some b) := by
  unfold succsOf
  cases hblock : blocks[a]? with
  | none => simp
  | some block =>
      simp only [Option.map_some, Option.getD_some, Option.some.injEq, exists_eq_left']
      unfold successors
      split
      · rename_i hsame
        simp [hsame]
      · simp

theorem lt_of_mem_succsOf {a b : Nat} (h : b ∈ succsOf blocks a) : a < blocks.length := by
  obtain ⟨block, hblock, -⟩ := mem_succsOf.mp h
  exact (List.getElem?_eq_some_iff.mp hblock).1

theorem length_succsOf (b : Nat) : (succsOf blocks b).length ≤ 2 := by
  unfold succsOf
  cases blocks[b]? with
  | none => simp
  | some block =>
      have hT : block.succT.toList.length ≤ 1 := by cases block.succT <;> simp
      have hF : block.succF.toList.length ≤ 1 := by cases block.succF <;> simp
      simp only [Option.map_some, Option.getD_some, successors, List.length_append]
      split
      · simpa using Nat.le_trans hT (by omega)
      · omega

/-- The predecessor list of a block names the blocks that have it as a successor. -/
theorem mem_predsOf (h : WellLinked blocks) {a b : Nat} (hb : b < blocks.length) :
    a ∈ predsOf blocks b ↔ b ∈ succsOf blocks a := by
  have hblock : blocks[b]? = some blocks[b] := List.getElem?_eq_getElem hb
  have hpreds : predsOf blocks b = incoming blocks b := by
    rw [predsOf, hblock, Option.map_some, Option.getD_some]
    exact h.preds b _ hblock
  rw [hpreds, mem_succsOf]
  unfold incoming
  simp only [List.mem_flatMap, Links.edgesTo, Block.links, List.mem_filterMap, List.mem_append,
    Option.mem_toList]
  constructor
  · rintro ⟨p, hp, s, hs, hsb⟩
    split at hsb
    · rename_i heq
      cases hsb
      subst heq
      obtain ⟨i, hi⟩ := List.mem_iff_getElem?.mp hp
      obtain rfl := h.num i p hi
      exact ⟨p, hi, hs⟩
    · cases hsb
  · rintro ⟨p, hp, hs⟩
    refine ⟨p, List.mem_of_getElem? hp, b, hs, ?_⟩
    rw [if_pos rfl, h.num a p hp]

end Links

/-- An edge leads to a block of higher rank. -/
def Acyclic (blocks : List Block) : Prop :=
  ∃ rank : Nat → Nat, ∀ a, ∀ b ∈ succsOf blocks a, rank a < rank b

/-- Some path leads from one block to the other. -/
def BlockReaches (blocks : List Block) : Nat → Nat → Prop :=
  Relation.ReflTransGen fun a b => b ∈ succsOf blocks a

/-- The blocks that the walk keeps, given the blocks that are asked about. -/
def keptBlocks (blocks : List Block) (targets : Option (List Nat)) : List Nat :=
  blockSlice blocks (forwardReachable blocks) targets

section Kept

variable {blocks : List Block}

theorem mem_forwardReachable {b : Nat} :
    b ∈ forwardReachable blocks ↔ BlockReaches blocks 0 b ∧ b < blocks.length := by
  unfold forwardReachable
  constructor
  · intro h
    have hall := Lib.worklist_forall (fun b => decide (b < blocks.length)) (fun _ => succsOf blocks)
      (BlockReaches blocks 0)
      (fun _ a ha u hu => ha.tail hu) (Lib.worklistFuel (List.range blocks.length) 2) [] [0]
      (by simp) (fun b hb => by obtain rfl := List.mem_singleton.mp hb; exact .refl) b h
    simpa using hall
  · rintro ⟨hreach, hb⟩
    obtain ⟨-, hroot, hclosed⟩ := Lib.worklist_closed (fun b => decide (b < blocks.length))
      (fun _ => succsOf blocks) (succsOf blocks) (List.range blocks.length) 2
      (fun _ _ _ u _ hu => by simpa using hu) (fun _ b => length_succsOf b) (fun _ _ u hu => .inl hu)
      (Lib.worklistFuel (List.range blocks.length) 2) [] [0] (fun b _ hok => by simpa using hok)
      (by
        have hle : Lib.unseen (List.range blocks.length) [] ≤ (List.range blocks.length).length :=
          List.length_filter_le _ _
        have hmul := Nat.mul_le_mul_right (2 + 1) hle
        unfold Lib.worklistFuel
        simp only [List.length_singleton]
        omega)
      (by simp)
    induction hreach with
    | refl => exact hroot 0 (by simp) (by simpa using hb)
    | tail _ hstep ih => exact hclosed _ (ih (lt_of_mem_succsOf hstep)) _ hstep (by simpa using hb)

theorem nodup_forwardReachable : (forwardReachable blocks).Nodup :=
  Lib.worklist_nodup _ _ _ (by simp)

theorem mem_sliceTo {live : List Nat} {target : Nat} (htarget : target ∈ live) :
    target ∈ sliceTo blocks live target ∧ (∀ b ∈ sliceTo blocks live target, b ∈ live) ∧
      ∀ b ∈ sliceTo blocks live target, ∀ p ∈ predsOf blocks b, p ∈ live →
        p ∈ sliceTo blocks live target := by
  have hwidth : ∀ (seen : List Nat) (b : Nat),
      ((predsOf blocks b).filter fun p => p ∈ live && p ∉ seen).length ≤
        (blocks.map (·.preds.length)).sum := by
    intro seen b
    refine Nat.le_trans (List.length_filter_le _ _) ?_
    unfold predsOf
    cases hblock : blocks[b]? with
    | none => simp
    | some block =>
        apply List.le_sum_of_mem
        exact List.mem_map_of_mem (List.mem_of_getElem? hblock)
  obtain ⟨-, hroot, hclosed⟩ := Lib.worklist_closed (fun _ => true)
    (fun seen b => (predsOf blocks b).filter fun p => p ∈ live && p ∉ seen)
    (fun b => (predsOf blocks b).filter (· ∈ live)) (target :: live)
    (blocks.map (·.preds.length)).sum
    (fun _ _ _ u hu _ => by simp at hu; simp [hu])
    hwidth
    (fun seen _ u hu => by
      simp only [List.mem_filter, decide_eq_true_eq] at hu
      by_cases hseen : u ∈ seen
      · exact .inr hseen
      · exact .inl (by simp [hu, hseen]))
    (Lib.worklistFuel (target :: live) ((blocks.map (·.preds.length)).sum)) [] [target]
    (fun b hb _ => by simp at hb; simp [hb])
    (by
      have hle : Lib.unseen (target :: live) [] ≤ (target :: live).length :=
        List.length_filter_le _ _
      have hmul := Nat.mul_le_mul_right ((blocks.map (·.preds.length)).sum + 1) hle
      unfold Lib.worklistFuel
      simp only [List.length_singleton]
      omega)
    (by simp)
  have hlive := Lib.worklist_forall (fun _ => true)
    (fun seen b => (predsOf blocks b).filter fun p => p ∈ live && p ∉ seen) (· ∈ live)
    (fun _ _ _ u hu => by simp at hu; exact hu.2.1)
    (Lib.worklistFuel (target :: live) ((blocks.map (·.preds.length)).sum)) [] [target]
    (by simp) (by simpa using htarget)
  refine ⟨hroot target (by simp) rfl, fun b hb => (hlive b hb).1, fun b hb p hp hplive => ?_⟩
  exact hclosed b hb p (List.mem_filter.mpr ⟨hp, by simpa using hplive⟩) rfl

/-- What the walk keeps: the entry, and with a block all blocks on the way to it. -/
structure Kept (blocks : List Block) (kept : List Nat) : Prop where
  nodup : kept.Nodup
  entry : 0 ∈ kept
  live : ∀ b ∈ kept, b ∈ forwardReachable blocks
  pred : ∀ b ∈ kept, b ≠ 0 → ∀ p ∈ predsOf blocks b, p ∈ forwardReachable blocks → p ∈ kept

theorem kept_keptBlocks (hentry : 0 < blocks.length) (targets : Option (List Nat)) :
    Kept blocks (keptBlocks blocks targets) := by
  have hzero : 0 ∈ forwardReachable blocks := mem_forwardReachable.mpr ⟨.refl, hentry⟩
  unfold keptBlocks
  cases targets with
  | none => exact ⟨nodup_forwardReachable, hzero, fun _ hb => hb, fun _ _ _ _ _ hp => hp⟩
  | some targets =>
      unfold blockSlice
      have hmem : ∀ {t b}, t ∈ targets.filter (· ∈ forwardReachable blocks) →
          b ∈ sliceTo blocks (forwardReachable blocks) t →
          b ∈ (targets.filter (· ∈ forwardReachable blocks)).flatMap
            (sliceTo blocks (forwardReachable blocks)) :=
        fun ht hb => List.mem_flatMap.mpr ⟨_, ht, hb⟩
      refine ⟨List.nodup_dedup _, by simp, fun b hb => ?_, fun b hb hne p hp hplive => ?_⟩
      · rcases List.mem_cons.mp (List.mem_dedup.mp hb) with rfl | hb
        · exact hzero
        · obtain ⟨t, ht, hb⟩ := List.mem_flatMap.mp hb
          have htlive : t ∈ forwardReachable blocks := by simpa using (List.mem_filter.mp ht).2
          exact (mem_sliceTo htlive).2.1 b hb
      · rcases List.mem_cons.mp (List.mem_dedup.mp hb) with rfl | hb
        · exact absurd rfl hne
        · obtain ⟨t, ht, hb⟩ := List.mem_flatMap.mp hb
          have htlive : t ∈ forwardReachable blocks := by simpa using (List.mem_filter.mp ht).2
          have hp' := (mem_sliceTo htlive).2.2 b hb p hp hplive
          exact List.mem_dedup.mpr (List.mem_cons_of_mem _ (hmem ht hp'))

end Kept

section Topo

variable {blocks : List Block} {kept order : List Nat}

/-- The order lists the kept blocks, the entry first, and no block before one of its
predecessors. -/
structure WalkOrder (blocks : List Block) (kept order : List Nat) : Prop where
  nodup : order.Nodup
  mem : ∀ b, b ∈ order ↔ b ∈ kept
  later : ∀ l b r, order = l ++ b :: r → ∀ u ∈ succsOf blocks b, u ∈ kept → u ∈ r

/-- The place in the order goes up along the edges between kept blocks. -/
theorem WalkOrder.idxOf_lt (h : WalkOrder blocks kept order) {a b : Nat} (ha : a ∈ kept)
    (hb : b ∈ kept) (hstep : b ∈ succsOf blocks a) : order.idxOf a < order.idxOf b := by
  obtain ⟨l, r, hsplit, hnew⟩ := List.eq_append_cons_of_mem ((h.mem a).mpr ha)
  have hr : b ∈ r := h.later l a r hsplit b hstep hb
  have hnodup := h.nodup
  rw [hsplit] at hnodup ⊢
  have hl : b ∉ l := fun hin =>
    (List.nodup_append.mp hnodup).2.2 b hin b (List.mem_cons_of_mem _ hr) rfl
  have hne : b ≠ a := by
    rintro rfl
    exact (List.nodup_cons.mp (List.nodup_append.mp hnodup).2.1).1 hr
  rw [List.idxOf_append_of_notMem hnew, List.idxOf_append_of_notMem hl, List.idxOf_cons_self,
    List.idxOf_cons_ne _ hne.symm]
  omega

/-- The search for the order does not leave the kept blocks. -/
theorem mem_kept_of_dfsOrder (hkept : Kept blocks kept)
    (h : Lib.dfsOrder (fun b => (succsOf blocks b).filter (· ∈ kept))
      (Lib.dfsFuel (0 :: kept) 2) (fun _ => .white) [] [(0, false)] = some order) :
    ∀ b ∈ order, b ∈ kept := by
  apply Lib.dfsOrder_forall (· ∈ kept) ?_ _ (by simp) ?_ h
  · intro b _ u hu
    simpa using (List.mem_filter.mp hu).2
  · intro b d hb
    simp only [List.mem_singleton, Prod.mk.injEq] at hb
    exact hb.1 ▸ hkept.entry

theorem walkOrder_of_topoOrder (hkept : Kept blocks kept)
    (h : topoOrder blocks kept = .ok order) : WalkOrder blocks kept order := by
  unfold topoOrder at h
  split at h
  · cases h
  · rename_i result hrun
    split at h
    · cases h
    · rename_i hlength
      cases h
      have hlength : order.length = kept.length := by simpa using hlength
      obtain ⟨htopo, -, hroot⟩ := Lib.dfsOrder_topo _ (Lib.dfsState_start _ 0) hrun
      have hsub : ∀ b ∈ order, b ∈ kept := mem_kept_of_dfsOrder hkept hrun
      have hperm : order.Perm kept :=
        (htopo.nodup.subperm hsub).perm_of_length_le hlength.ge
      refine ⟨htopo.nodup, fun b => hperm.mem_iff, fun l b r hsplit u hu huk => ?_⟩
      exact htopo.finished l b r hsplit u (List.mem_filter.mpr ⟨hu, by simpa using huk⟩)

/-- The successors that the walk keeps. -/
theorem length_succsOf_filter (b : Nat) :
    ((succsOf blocks b).filter (· ∈ kept)).length ≤ 2 := by
  refine Nat.le_trans (List.length_filter_le _ _) ?_
  exact length_succsOf b

/-- An edge between two live blocks. -/
def LiveEdge (blocks : List Block) (live : List Nat) (a b : Nat) : Prop :=
  a ∈ live ∧ b ∈ live ∧ b ∈ succsOf blocks a

/-- Every live block is reached from the entry through live blocks. -/
theorem liveReaches (hlinked : WellLinked blocks) (hkept : Kept blocks kept) {b : Nat}
    (hb : b ∈ kept) : Relation.ReflTransGen (LiveEdge blocks kept) 0 b := by
  have hreach := (mem_forwardReachable.mp (hkept.live b hb)).1
  induction hreach with
  | refl => exact .refl
  | @tail a b hpath hstep ih =>
      by_cases hzero : b = 0
      · rw [hzero]
      · have hlt := (mem_forwardReachable.mp (hkept.live b hb)).2
        have halive := mem_forwardReachable.mpr ⟨hpath, lt_of_mem_succsOf hstep⟩
        have ha := hkept.pred b hb hzero a ((mem_predsOf hlinked hlt).mpr hstep) halive
        exact (ih ha).tail ⟨ha, hb, hstep⟩

/-- Kept blocks along whose edges a rank goes up have an order. -/
theorem topoOrder_ok_of_rank (hlinked : WellLinked blocks) (hkept : Kept blocks kept)
    (rank : Nat → Nat)
    (hrank : ∀ a, ∀ b ∈ (succsOf blocks a).filter (· ∈ kept), rank a < rank b) :
    ∃ order, topoOrder blocks kept = .ok order := by
  have hstart : Lib.DfsState (fun b => (succsOf blocks b).filter (· ∈ kept))
      (fun _ => .white) [] [(0, false)] := Lib.dfsState_start _ 0
  obtain ⟨order, hrun⟩ := Lib.dfsOrder_ends rank hrank (0 :: kept) 2 length_succsOf_filter
    (fun _ _ u hu => by simp at hu; simp [hu]) (Lib.dfsFuel (0 :: kept) 2) hstart (by simp)
    (by simp)
    (by
      have hle : Lib.whites (0 :: kept) (fun _ => .white) ≤ (0 :: kept).length :=
        List.length_filter_le _ _
      have hmul := Nat.mul_le_mul_right (2 + 2) hle
      unfold Lib.dfsFuel
      simp only [List.length_singleton]
      omega)
  obtain ⟨htopo, -, hroot⟩ := Lib.dfsOrder_topo _ hstart hrun
  have hsub : ∀ b ∈ order, b ∈ kept := mem_kept_of_dfsOrder hkept hrun
  -- a kept block is reached through kept blocks, which the search lists one after the other
  have hcover : ∀ b, Relation.ReflTransGen (LiveEdge blocks kept) 0 b → b ∈ order := by
    intro b hreach
    induction hreach with
    | refl => exact hroot 0 false (by simp)
    | @tail a b _ hstep ih =>
        obtain ⟨-, hb, hsucc⟩ := hstep
        obtain ⟨l, r, hsplit⟩ := List.append_of_mem ih
        have hr := htopo.finished l a r hsplit b (List.mem_filter.mpr ⟨hsucc, by simpa using hb⟩)
        rw [hsplit]
        exact List.mem_append_right _ (List.mem_cons_of_mem _ hr)
  have hlength : order.length = kept.length := by
    apply List.Perm.length_eq
    apply (List.perm_ext_iff_of_nodup htopo.nodup hkept.nodup).mpr
    intro b
    exact ⟨hsub b, fun hb => hcover b (liveReaches hlinked hkept hb)⟩
  refine ⟨order, ?_⟩
  unfold topoOrder
  simp only [hrun, hlength, ne_eq, not_true_eq_false, if_false]
  rfl

/-- An acyclic graph has a walk order. -/
theorem topoOrder_ok (hlinked : WellLinked blocks) (hacyclic : Acyclic blocks)
    (hkept : Kept blocks kept) : ∃ order, topoOrder blocks kept = .ok order := by
  obtain ⟨rank, hrank⟩ := hacyclic
  apply topoOrder_ok_of_rank hlinked hkept rank
  intro a b hb
  exact hrank a b (List.mem_of_mem_filter hb)

end Topo

end Hornet
