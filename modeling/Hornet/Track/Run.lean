import Hornet.Lib.Fold
import Hornet.Track.Tracker

/-!
Runs of the tracker. The blocks are tracked one by one, the first one first and
every other one after all its predecessors; a block that waits is as the graph
has it.
-/

namespace Hornet

/-- The state after the blocks `done` of the graph `cfg` were tracked in this order. -/
inductive TrackRun (P : Program) (cfg : List Block) : Tracker → List Nat → Prop
  | first {t : Tracker} (h : trackBlock P { blocks := cfg, idBox := P.instrs.length } 0 = .ok t) :
      TrackRun P cfg t [0]
  | next {t t' : Tracker} {done : List Nat} {no : Nat} {b : Block} (hrun : TrackRun P cfg t done)
      (hno : no ∉ done) (hb : cfg[no]? = some b)
      (hpreds : ∀ p ∈ b.preds, p < cfg.length → p ∈ done) (h : trackBlock P t no = .ok t') :
      TrackRun P cfg t' (done ++ [no])

variable {P : Program} {cfg : List Block}

theorem blocks_trackBlock {t t' : Tracker} {no : Nat} (h : trackBlock P t no = .ok t') :
    ∃ b b', t.blocks[no]? = some b ∧ t'.blocks = t.blocks.set no b' ∧ t'.idBox = b'.idBox ∧
      ∃ entered, enter t.blocks (b.clear t.idBox) = .ok entered ∧
        (List.range' entered.start (entered.end + 1 - entered.start)).foldlM
          (trackInstr P t.blocks) entered = .ok b' := by
  unfold trackBlock at h
  split at h
  · cases h
  · rename_i b hb
    simp only [Lib.bind_eq_ok] at h
    obtain ⟨entered, hentered, b', hb', h⟩ := h
    cases h
    exact ⟨b, b', hb, rfl, rfl, entered, hentered, hb'⟩

/-- A block that waits is as the graph has it. -/
theorem TrackRun.waiting {t : Tracker} {done : List Nat} (h : TrackRun P cfg t done) :
    t.blocks.length = cfg.length ∧ ∀ i, i ∉ done → t.blocks[i]? = cfg[i]? := by
  induction h with
  | first h =>
      obtain ⟨b, b', -, hset, -⟩ := blocks_trackBlock h
      refine ⟨by rw [hset, List.length_set], fun i hi => ?_⟩
      rw [hset, List.getElem?_set_ne (by simpa [eq_comm] using hi)]
  | next hrun hno hb hpreds h ih =>
      obtain ⟨b, b', -, hset, -⟩ := blocks_trackBlock h
      refine ⟨by rw [hset, List.length_set, ih.1], fun i hi => ?_⟩
      rw [List.mem_append, not_or] at hi
      rw [hset, List.getElem?_set_ne (by simpa [eq_comm] using hi.2), ih.2 i hi.1]

theorem nextBlockNo_ok {blocks : List Block} {untraced : List Nat} {no : Nat}
    (h : nextBlockNo blocks untraced = some no) :
    no ∈ untraced ∧ ∀ b, blocks[no]? = some b → ∀ p ∈ b.preds, p ∉ untraced := by
  unfold nextBlockNo at h
  refine ⟨List.mem_of_find?_eq_some h, fun b hb p hp => ?_⟩
  have hall := List.find?_some h
  simp only [hb, Option.map_some, Option.all_some, List.all_eq_true, decide_eq_true_eq] at hall
  exact hall p hp

theorem trackFrom_run {fuel : Nat} {t t' : Tracker} {done untraced : List Nat}
    (hrun : TrackRun P cfg t done) (hnodup : untraced.Nodup)
    (hsplit : ∀ i, i ∈ untraced ↔ i < cfg.length ∧ i ∉ done)
    (h : trackFrom P fuel t untraced = .ok t') :
    ∃ all, TrackRun P cfg t' all ∧ ∀ i < cfg.length, i ∈ all := by
  induction fuel generalizing t done untraced with
  | zero =>
      cases untraced with
      | nil =>
          cases h
          exact ⟨done, hrun, fun i hi => by simpa [hi] using hsplit i⟩
      | cons => cases h
  | succ fuel ih =>
      cases untraced with
      | nil =>
          cases h
          exact ⟨done, hrun, fun i hi => by simpa [hi] using hsplit i⟩
      | cons u us =>
          simp only [trackFrom] at h
          split at h
          · cases h
          · rename_i no hno
            simp only [Lib.bind_eq_ok] at h
            obtain ⟨t₁, htrack, hrest⟩ := h
            obtain ⟨hmem, hpreds⟩ := nextBlockNo_ok hno
            obtain ⟨hlt, hnew⟩ := (hsplit no).mp hmem
            have hb : cfg[no]? = some cfg[no] := List.getElem?_eq_getElem hlt
            have hready : ∀ p ∈ cfg[no].preds, p < cfg.length → p ∈ done := by
              intro p hp hplt
              by_contra hwait
              exact hpreds _ ((hrun.waiting.2 no hnew).trans hb) p hp
                ((hsplit p).mpr ⟨hplt, hwait⟩)
            refine ih (.next hrun hnew hb hready htrack) (hnodup.erase no) (fun i => ?_) hrest
            rw [hnodup.mem_erase_iff, hsplit, List.mem_append, List.mem_singleton]
            tauto

/-- A successful tracking is a run over all blocks. -/
theorem track_run {t : Tracker} (h : track P cfg = .ok t) :
    ∃ all, TrackRun P cfg t all ∧ ∀ i < cfg.length, i ∈ all := by
  simp only [track, Lib.bind_eq_ok] at h
  obtain ⟨t₀, hfirst, hrest⟩ := h
  refine trackFrom_run (.first hfirst) (List.nodup_range.erase 0) (fun i => ?_) hrest
  rw [List.nodup_range.mem_erase_iff, List.mem_range, List.mem_singleton]
  exact and_comm

/-- A block is entered from the initial state, at a program's entry or from a predecessor. -/
theorem enter_ok {blocks : List Block} {b b' : Block} (h : enter blocks b = .ok b') :
    b.num = 0 ∨ b.progEntry.isSome ∨ ∃ p ∈ b.preds, p < blocks.length := by
  unfold enter at h
  split at h
  · exact .inl ‹_›
  · split at h
    · exact .inr (.inl ‹_›)
    · unfold Block.mergePredecessors at h
      dsimp only at h
      split at h
      · cases h
      · rename_i x xs hedges
        obtain ⟨p, hp, hpx⟩ := List.mem_filterMap.mp
          (show x ∈ b.predEdges blocks by rw [hedges]; simp)
        obtain ⟨pb, hpb, -⟩ := Option.map_eq_some_iff.mp hpx
        exact .inr (.inr ⟨p, hp, (List.getElem?_eq_some_iff.mp hpb).1⟩)

end Hornet
