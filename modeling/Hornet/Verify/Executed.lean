import Hornet.Lib.Overwrite
import Hornet.Track.Log
import Hornet.Verify.Live
import Hornet.Verify.Literals
import Hornet.Verify.Witness

/-!
What a model executes. A folded read takes the writes of all blocks in the order of the block
numbers; where the numbers go up along the edges, those of them that the model executes are
the actions on its path, one after the other.
-/

namespace Hornet

open Smt Lib

variable {maps : List MapInfo} {m : ZModel}

/-- Whether an event comes before a point: an instruction of block `b`, or its end. -/
def Event.before (e : Event) (b : Nat) (atIdx : Option Int) : Bool :=
  e.block < b || (e.block = b && atIdx.all (e.idx < ·))

/-- The blocks list what they do in the order of their instructions. -/
structure Listed (blocks : List Block) : Prop where
  placed : ∀ (c : Nat) (block : Block), blocks[c]? = some block → ∀ e ∈ block.actions, e.block = c
  steps : ∀ block ∈ blocks, block.actions.Pairwise fun (e e' : Event) => e.idx < e'.idx

/-- The events that a read of an instruction, or the end of a block, takes into account. -/
def Memory.shown (M : Memory maps) (e : Event) (b : Nat) (atIdx : Option Int) : Bool :=
  match atIdx with
  | none => M.ranBefore e b
  | some i => M.visible e b i

namespace ForwardContext

section Executed

variable (F : ForwardContext maps) (w : Walk maps)

/-- The actions on the path of a model before a point. -/
def executed (m : ZModel) (b : Nat) (atIdx : Option Int) : List Event :=
  (F.blocks.flatMap (·.actions)).filter fun e => (w.reachAt e.block).eval m && e.before b atIdx

/-- A finished walk. -/
structure Walked (kept order : List Nat) : Prop where
  linked : WellLinked F.blocks
  keeps : Kept F.blocks kept
  walks : WalkOrder F.blocks kept order
  anc : F.anc = ancestors F.blocks order
  listed : Listed F.blocks
  run : F.walk order = .ok w

/-- A finished walk over blocks that are numbered along the edges. -/
structure Folds (kept order : List Nat) : Prop extends Walked F w kept order where
  ascending : ∀ a b, LiveEdge F.blocks kept a b → a < b

end Executed

section Path

variable {F : ForwardContext maps} {w : Walk maps} {kept order : List Nat} {a b : Nat}
  {lower : Expr → Except LowerError ZBv}

/-- The step that a model takes from a reached block. -/
def Follows (F : ForwardContext maps) (w : Walk maps) (m : ZModel) (a b : Nat) : Prop :=
  w.Reached m a ∧ F.leads w m a = some b ∧ w.Reached m b

theorem Walked.visited (h : F.Walked w kept order) (hb : w.Reached m b) : b ∈ kept := by
  obtain ⟨last, hfront⟩ := front_of_walk h.linked h.keeps h.walks m h.run
  obtain ⟨info, hinfo, -⟩ := hb
  exact (h.walks.mem b).mp ((hfront.visited b).mp (by rw [hinfo]; rfl))

theorem Walked.liveEdge (h : F.Walked w kept order) (hab : F.Follows w m a b) :
    LiveEdge F.blocks kept a b :=
  ⟨h.visited hab.1, h.visited hab.2.2, mem_succsOf_of_leads hab.2.1⟩

/-- What holds of the entry and passes along the steps of a model holds of the reached blocks. -/
theorem Walked.induction (h : F.Walked w kept order) {P : Nat → Prop} (hentry : w.Reached m 0 → P 0)
    (hstep : ∀ c d, P c → F.Follows w m c d → P d) (hb : w.Reached m b) : P b := by
  obtain ⟨last, hfront⟩ := front_of_walk h.linked h.keeps h.walks m h.run
  exact (hfront.induction_rank order.idxOf
    (fun c d hc hd hlead => h.walks.idxOf_lt (h.visited hc) (h.visited hd) (mem_succsOf_of_leads hlead))
    (P := fun b => w.Reached m b ∧ P b) (fun hzero => ⟨hzero, hentry hzero⟩)
    (fun c d hc hlead hd => ⟨hd, hstep c d hc.2 ⟨hc.1, hlead, hd⟩⟩) hb).2

/-- Of two reached blocks, a model goes from one to the other. -/
theorem Walked.connected (h : F.Walked w kept order) (ha : w.Reached m a) (hb : w.Reached m b) :
    Relation.ReflTransGen (F.Follows w m) a b ∨ Relation.ReflTransGen (F.Follows w m) b a := by
  have hfrom : Relation.ReflTransGen (F.Follows w m) 0 a :=
    h.induction (fun _ => .refl) (fun c d hc hcd => hc.tail hcd) ha
  refine h.induction (P := fun b => Relation.ReflTransGen (F.Follows w m) a b ∨
    Relation.ReflTransGen (F.Follows w m) b a) (fun _ => .inr hfrom)
    (fun c d hc hcd => ?_) hb
  rcases hc with hc | hc
  · exact .inl (hc.tail hcd)
  · rcases Relation.ReflTransGen.cases_head hc with rfl | ⟨x, hcx, hxa⟩
    · exact .inl (.single hcd)
    · obtain rfl : x = d := Option.some.inj (hcx.2.1.symm.trans hcd.2.1)
      exact .inr hxa

/-- A path of a model from one block to another is one of the graph. -/
theorem Walked.trans (h : F.Walked w kept order)
    (hab : Relation.ReflTransGen (F.Follows w m) a b) (hne : a ≠ b) :
    Relation.TransGen (LiveEdge F.blocks kept) a b := by
  have hlive := Relation.ReflTransGen.mono (fun _ _ hstep => h.liveEdge hstep) _ _ hab
  exact (Relation.reflTransGen_iff_eq_or_transGen.mp hlive).resolve_left hne.symm

/-- The place in the order goes up along the paths of the graph. -/
theorem Walked.idxOf_lt (h : F.Walked w kept order)
    (hab : Relation.TransGen (LiveEdge F.blocks kept) a b) : order.idxOf a < order.idxOf b := by
  induction hab with
  | single hstep => exact h.walks.idxOf_lt hstep.1 hstep.2.1 hstep.2.2
  | tail _ hstep ih => exact ih.trans (h.walks.idxOf_lt hstep.1 hstep.2.1 hstep.2.2)

/-- The ancestors of a visited block are those that a path of the graph comes from. -/
theorem Walked.ancestorOrSelf_iff (h : F.Walked w kept order) (hb : b ∈ kept) :
    (F.mem w lower).ancestorOrSelf a b = true ↔
      a = b ∨ Relation.TransGen (LiveEdge F.blocks kept) a b := by
  have hanc := h.walks.ancestors h.linked h.keeps
  rw [← h.anc] at hanc
  obtain ⟨s, hs⟩ := Option.isSome_iff_exists.mp ((hanc.known b).mpr ((h.walks.mem b).mpr hb))
  rw [← hanc.mem b s hs a]
  unfold Memory.ancestorOrSelf
  change (decide (a = b) || ((F.anc b).getD []).contains a) = true ↔ _
  rw [hs, Bool.or_eq_true, decide_eq_true_eq, Option.getD_some, List.contains_iff_mem]

theorem Folds.lt (h : F.Folds w kept order)
    (hab : Relation.TransGen (LiveEdge F.blocks kept) a b) : a < b := by
  induction hab with
  | single hstep => exact h.ascending _ _ hstep
  | tail _ hstep ih => exact ih.trans (h.ascending _ _ hstep)

/-- The reached ancestors of a reached block are the reached blocks with smaller numbers. -/
theorem Folds.ancestor_iff (h : F.Folds w kept order) (ha : w.Reached m a) (hb : w.Reached m b) :
    (F.mem w lower).ancestorOrSelf a b = true ↔ a ≤ b := by
  rw [h.ancestorOrSelf_iff (h.visited hb)]
  constructor
  · rintro (rfl | hab)
    · exact Nat.le_refl _
    · exact Nat.le_of_lt (h.lt hab)
  · intro hle
    rcases Nat.eq_or_lt_of_le hle with rfl | hlt
    · exact .inl rfl
    · right
      rcases h.connected ha hb with hab | hba
      · exact h.trans hab (Nat.ne_of_lt hlt)
      · have hback := h.lt (h.trans hba (Nat.ne_of_gt hlt))
        omega

/-- Of the events on the path, those before a point are taken into account there. -/
theorem Folds.shown_eq (h : F.Folds w kept order) (hb : w.Reached m b) {e : Event}
    (he : w.Reached m e.block) (atIdx : Option Int) :
    (F.mem w lower).shown e b atIdx = e.before b atIdx := by
  have hran : (F.mem w lower).ranBefore e b = decide (e.block ≤ b) := by
    have hreach : w.reachAt e.block ≠ .ff := by
      intro hff
      have htrue := (reachAt_eval_iff h.run m e.block).mpr he
      rw [hff] at htrue
      cases htrue
    have hreach' : decide ((F.mem w lower).reachOf e.block ≠ .ff) = true := decide_eq_true hreach
    rw [Memory.ranBefore, hreach', Bool.and_true, Bool.eq_iff_iff, h.ancestor_iff he hb,
      decide_eq_true_eq]
  cases atIdx with
  | none =>
      rw [Memory.shown, hran, Event.before, Option.all_none, Bool.and_true, Bool.eq_iff_iff]
      simp only [Bool.or_eq_true, decide_eq_true_eq]
      omega
  | some i =>
      rw [Memory.shown, Memory.visible, hran, Event.before, Option.all_some, Bool.eq_iff_iff]
      simp only [Bool.or_eq_true, Bool.and_eq_true, Bool.not_eq_true', Bool.and_eq_false_iff,
        decide_eq_true_eq, decide_eq_false_iff_not]
      omega

end Path

section Order

variable {F : ForwardContext maps} {w : Walk maps} {kept order : List Nat}

/-- The events of all blocks, in the order of the block numbers. -/
theorem pairwise_events {blocks : List Block} (h : Listed blocks) :
    (blocks.flatMap (·.actions)).Pairwise fun e e' => e.before e'.block (some e'.idx) = true := by
  rw [List.pairwise_flatMap]
  constructor
  · intro block hblock
    obtain ⟨c, hc⟩ := List.mem_iff_getElem?.mp hblock
    refine (h.steps block hblock).imp_of_mem fun {e e'} he he' hlt => ?_
    rw [Event.before, h.placed c block hc e he, h.placed c block hc e' he']
    simp [hlt]
  · rw [List.pairwise_iff_getElem]
    intro i j hi hj hij e he e' he'
    rw [Event.before, h.placed i _ (List.getElem?_eq_getElem hi) e he,
      h.placed j _ (List.getElem?_eq_getElem hj) e' he']
    simp [hij]

/-- In an ordered list, what comes before an element stands to its left. -/
theorem filter_before {es done rest : List Event} {e : Event}
    (h : es.Pairwise fun e e' => e.before e'.block (some e'.idx) = true)
    (hsplit : es = done ++ e :: rest) :
    es.filter (fun x => x.before e.block (some e.idx)) = done := by
  subst hsplit
  obtain ⟨-, hrest, hdone⟩ := List.pairwise_append.mp h
  have hlater : ∀ x ∈ e :: rest, x.before e.block (some e.idx) = false := by
    intro x hx
    rcases List.mem_cons.mp hx with rfl | hx
    · simp [Event.before]
    · have hafter := (List.pairwise_cons.mp hrest).1 x hx
      simp only [Event.before, Option.all_some, Bool.or_eq_true, Bool.and_eq_true,
        decide_eq_true_eq] at hafter
      simp only [Event.before, Option.all_some, Bool.or_eq_false_iff, Bool.and_eq_false_iff,
        decide_eq_false_iff_not]
      omega
  rw [List.filter_append, List.filter_eq_self.mpr fun x hx => hdone x hx e List.mem_cons_self,
    List.filter_eq_nil_iff.mpr fun x hx => by simp [hlater x hx], List.append_nil]

theorem before_trans {e e' : Event} {b : Nat} {atIdx : Option Int}
    (h : e.before e'.block (some e'.idx) = true) (h' : e'.before b atIdx = true) :
    e.before b atIdx = true := by
  cases atIdx with
  | none =>
      simp only [Event.before, Option.all_some, Option.all_none, Bool.or_eq_true, Bool.and_eq_true,
        decide_eq_true_eq, and_true] at h h' ⊢
      omega
  | some i =>
      simp only [Event.before, Option.all_some, Bool.or_eq_true, Bool.and_eq_true,
        decide_eq_true_eq] at h h' ⊢
      omega

/-- The condition of an event on the path, next to those to its left in the list. -/
theorem filter_executed {es done rest : List Event} {e : Event} {p : Event → Bool} {b : Nat}
    {atIdx : Option Int} (h : es.Pairwise fun e e' => e.before e'.block (some e'.idx) = true)
    (hsplit : es = done ++ e :: rest) (hbefore : e.before b atIdx = true) :
    done.filter (fun x => p x && x.before b atIdx) = done.filter p := by
  apply List.filter_congr
  intro x hx
  have hleft := (List.pairwise_append.mp (hsplit ▸ h)).2.2 x hx e List.mem_cons_self
  rw [before_trans hleft hbefore, Bool.and_true]

/-- The actions of a block. -/
def actionsOf (F : ForwardContext maps) (c : Nat) : List Event :=
  ((F.blocks[c]?).map (·.actions)).getD []

theorem flatMap_actionsOf (blocks : List Block) :
    (List.range blocks.length).flatMap (fun c => ((blocks[c]?).map (·.actions)).getD []) =
      blocks.flatMap (·.actions) := by
  induction blocks with
  | nil => rfl
  | cons block blocks ih =>
      rw [List.length_cons, List.range_succ_eq_map, List.flatMap_cons, List.flatMap_map,
        List.flatMap_cons]
      exact congrArg (block.actions ++ ·) ih

/-- The path of a model goes through the reached blocks in the order of their numbers. -/
theorem Folds.path (h : F.Folds w kept order) (hended : ∀ s ∈ F.blocks, s.Ended) :
    (F.path w m).Pairwise (· < ·) ∧ ∀ c, c ∈ F.path w m ↔ w.Reached m c := by
  obtain ⟨last, hfront⟩ := front_of_walk h.linked h.keeps h.walks m h.run
  obtain ⟨e, htrail, -, hall⟩ := mem_path_of_reached h.linked hended h.keeps h.walks hfront
  refine ⟨List.isChain_iff_pairwise.mp ?_, fun c => ⟨htrail.reached c, hall c⟩⟩
  rw [List.isChain_iff_forall_rel_of_append_cons_cons]
  intro x y l r hsplit
  have hfollows := htrail.chain l x y r hsplit
  have hx : w.Reached m x := htrail.reached x (by simp [hsplit])
  have hy : w.Reached m y := htrail.reached y (by simp [hsplit])
  exact h.ascending x y
    (h.liveEdge ⟨hx, leads_of_followsEdge h.linked hfront hfollows, hy⟩)

/-- What a model executes before a point are the actions of the blocks on its path. -/
theorem Folds.executed_eq (h : F.Folds w kept order) (hended : ∀ s ∈ F.blocks, s.Ended) (b : Nat)
    (atIdx : Option Int) :
    F.executed w m b atIdx = ((F.path w m).flatMap F.actionsOf).filter (·.before b atIdx) := by
  obtain ⟨hsorted, hmem⟩ := h.path (m := m) hended
  have hplaced : ∀ c, ∀ e ∈ F.actionsOf c, e.block = c := by
    intro c e he
    unfold actionsOf at he
    cases hblock : F.blocks[c]? with
    | none =>
        rw [hblock] at he
        cases he
    | some block =>
        rw [hblock] at he
        exact h.listed.placed c block hblock e he
  have hlow : ∀ c ∈ F.path w m, c < F.blocks.length := by
    intro c hc
    exact (mem_forwardReachable.mp (h.keeps.live c (h.visited ((hmem c).mp hc)))).2
  rw [executed, ← flatMap_actionsOf, List.filter_flatMap, List.filter_flatMap]
  change (List.range F.blocks.length).flatMap (fun c => (F.actionsOf c).filter _) = _
  rw [flatMap_range_of_ascending hsorted hlow]
  · apply List.flatMap_congr
    intro c hc
    apply List.filter_congr
    intro e he
    have hreach : (w.reachAt e.block).eval m = true := by
      rw [hplaced c e he]
      exact (reachAt_eval_iff h.run m c).mpr ((hmem c).mp hc)
    rw [hreach, Bool.true_and]
  · intro c _ hout
    rw [List.filter_eq_nil_iff]
    intro e he hin
    obtain ⟨hreach, -⟩ := Bool.and_eq_true_iff.mp hin
    rw [hplaced c e he] at hreach
    exact hout ((hmem c).mpr ((reachAt_eval_iff h.run m c).mp hreach))

end Order

section Tracked

variable {F : ForwardContext maps} {w : Walk maps} {instrs : List Instr} {progs : List ProgRegion}
  {cfg : List Block} {P : Program} {t : Tracker} {targets : Option (List Nat)} {order : List Nat}

/-- The walk of a context over a tracked program. -/
structure Analysed (F : ForwardContext maps) (w : Walk maps) (instrs : List Instr)
    (progs : List ProgRegion) (cfg : List Block) (P : Program) (t : Tracker)
    (targets : Option (List Nat)) (order : List Nat) : Prop where
  built : buildCfg instrs progs = .ok cfg
  tracked : track P cfg = .ok t
  blocks : F.blocks = t.blocks
  ordered : topoOrder F.blocks (keptBlocks F.blocks targets) = .ok order
  anc : F.anc = ancestors F.blocks order
  run : F.walk order = .ok w

/-- The walk of a context over a tracked program whose edges go up in the numbers of the blocks. -/
structure Forward (F : ForwardContext maps) (w : Walk maps) (instrs : List Instr)
    (progs : List ProgRegion) (cfg : List Block) (P : Program) (t : Tracker)
    (targets : Option (List Nat)) (order : List Nat) : Prop
    extends Analysed F w instrs progs cfg P t targets order where
  ascending : ∀ a b, LiveEdge F.blocks (keptBlocks F.blocks targets) a b → a < b

theorem Analysed.ended (h : Analysed F w instrs progs cfg P t targets order) :
    ∀ s ∈ F.blocks, s.Ended := h.blocks ▸ ended_track h.built h.tracked

theorem Analysed.walked (h : Analysed F w instrs progs cfg P t targets order) :
    F.Walked w (keptBlocks F.blocks targets) order := by
  have hlinked : WellLinked F.blocks :=
    wellLinked_of_sameGraph (h.blocks ▸ sameGraph_track h.tracked) (wellLinked_buildCfg h.built)
  have hkept := kept_keptBlocks (h.blocks ▸ length_track_pos h.built h.tracked) targets
  have hlogged : ∀ b ∈ F.blocks, b.Logged := h.blocks ▸ logged_track h.tracked
  refine ⟨hlinked, hkept, walkOrder_of_topoOrder hkept h.ordered, h.anc, ⟨?_, ?_⟩, h.run⟩
  · intro c block hblock e he
    exact ((hlogged block (List.mem_of_getElem? hblock)).placed e he).trans
      (hlinked.num c block hblock)
  · exact fun block hblock => (hlogged block hblock).steps

theorem Forward.folds (h : Forward F w instrs progs cfg P t targets order) :
    F.Folds w (keptBlocks F.blocks targets) order := ⟨h.walked, h.ascending⟩

end Tracked

end ForwardContext

end Hornet
