import Hornet.Lib.Group
import Hornet.Track.Guards
import Hornet.Verify.Forward
import Hornet.Verify.Order

/-!
Which blocks the walk reaches under a model. The blocks it has visited so far are
left by one edge at most: the last block of the path leads out of them, and every
other reached block leads to a reached one.
-/

namespace Hornet

open Smt

/-- The block that a block leads to, given whether its condition is true. -/
def Block.follow (block : Block) (taken : Bool) : Option Nat :=
  if block.branch then if taken then block.succT else block.succF
  else block.succT.or block.succF

section Walks

variable {maps : List MapInfo}

/-- The block is visited and its reach condition is true. -/
def Walk.Reached (w : Walk maps) (m : ZModel) (b : Nat) : Prop :=
  ∃ info, w.info b = some info ∧ info.reach.eval m = true

namespace ForwardContext

variable (F : ForwardContext maps)

/-- The block that a visited block leads to under the model. -/
def leads (w : Walk maps) (m : ZModel) (b : Nat) : Option Nat :=
  match F.blocks[b]?, w.info b with
  | some block, some info => block.follow (info.edgeTaken.eval m)
  | _, _ => none

variable {F}

theorem mem_succsOf_of_leads {w : Walk maps} {m : ZModel} {b c : Nat}
    (h : F.leads w m b = some c) : c ∈ succsOf F.blocks b := by
  unfold leads at h
  split at h
  · rename_i block info hblock _
    refine mem_succsOf.mpr ⟨block, hblock, ?_⟩
    unfold Block.follow at h
    split at h
    · split at h
      · exact .inl h
      · exact .inr h
    · rcases Option.or_eq_some_iff.mp h with h | ⟨-, h⟩
      · exact .inl h
      · exact .inr h
  · cases h

/-- The items of a block change bindings and the current state only. -/
structure SamePlace (w w' : Walk maps) : Prop where
  info : w'.info = w.info
  curBlock : w'.curBlock = w.curBlock
  curReach : w'.curReach = w.curReach

theorem samePlace_record (w : Walk maps) (e : Event) : SamePlace w (w.record e) := by
  unfold Walk.record
  split <;> exact ⟨rfl, rfl, rfl⟩

theorem samePlace_walkItem {b : Nat} {w w' : Walk maps} {item : Item}
    (h : F.walkItem b w item = .ok w') : SamePlace w w' := by
  cases item with
  | src e =>
      simp only [walkItem] at h
      split at h
      · cases h
        exact ⟨rfl, rfl, rfl⟩
      · obtain ⟨t, -, h⟩ := Lib.bind_eq_ok.mp h
        cases h
        exact ⟨rfl, rfl, rfl⟩
  | act e =>
      have hplace := samePlace_record w e
      rw [walkItem_act] at h
      split at h
      · cases h
        exact hplace
      · obtain ⟨sigma, -, h⟩ := Lib.bind_eq_ok.mp h
        cases h
        exact ⟨hplace.info, hplace.curBlock, hplace.curReach⟩

theorem samePlace_walkItems {b : Nat} {items : List Item} {w w' : Walk maps}
    (h : items.foldlM (F.walkItem b) w = .ok w') : SamePlace w w' :=
  Lib.foldlM_ok (fun _ w' => SamePlace w w') ⟨rfl, rfl, rfl⟩
    (fun _ _ _ _ hs _ hstep =>
      have hplace := samePlace_walkItem hstep
      ⟨hplace.info.trans hs.info, hplace.curBlock.trans hs.curBlock,
        hplace.curReach.trans hs.curReach⟩) h

/-- What the guards of the edges out of a block say under a model. -/
structure EdgeGuards (m : ZModel) (block : Block) (taken fall : Guard) : Prop where
  branch : block.branch = true → fall.eval m = !taken.eval m
  single : block.branch = false → taken = .tt ∧ fall = .tt

theorem edgeGuards_edges (m : ZModel) {w : Walk maps} {block : Block} {taken fall : Guard}
    {imprecise : Bool} (h : F.edges w block = .ok (taken, fall, imprecise)) :
    EdgeGuards m block taken fall := by
  unfold edges at h
  split at h
  · rename_i hbranch
    refine ⟨fun _ => ?_, fun hb => by rw [hbranch] at hb; cases hb⟩
    split at h
    · unfold branchGuards at h
      split at h
      · cases h
        exact Guard.eval_not m _
      · obtain ⟨c, -, h⟩ := Lib.bind_eq_ok.mp h
        cases h
        exact Guard.eval_not m _
    · unfold branchGuardsUnpruned at h
      split at h
      · cases h
        rfl
      · obtain ⟨c, -, h⟩ := Lib.bind_eq_ok.mp h
        cases h
        rfl
  · rename_i hbranch
    cases h
    exact ⟨fun hb => absurd hb hbranch, fun _ => ⟨rfl, rfl⟩⟩

/-- A visit of a block: its items are executed, then its edges get their guards. -/
structure Visits (w w' : Walk maps) (b : Nat) (block : Block) (last : Walk maps)
    (info : ForwardInfo maps) : Prop where
  items : block.items.foldlM (F.walkItem b) (F.enterBlock w b) = .ok last
  edges : F.edges last block = .ok (info.edgeTaken, info.edgeFall, info.imprecise)
  reach : info.reach = (F.enterBlock w b).curReach
  sigma : info.sigma = last.curSigma
  result : w' = { last with info := Function.update w.info b (some info) }

theorem visits_walkBlock {w w' : Walk maps} {b : Nat} {block : Block}
    (hblock : F.blocks[b]? = some block) (h : F.walkBlock w b = .ok w') :
    ∃ last info, Visits (F := F) w w' b block last info := by
  unfold walkBlock at h
  rw [hblock] at h
  obtain ⟨last, hitems, h⟩ := Lib.bind_eq_ok.mp h
  obtain ⟨⟨taken, fall, imprecise⟩, hedges, h⟩ := Lib.bind_eq_ok.mp h
  cases h
  have hplace := samePlace_walkItems hitems
  refine ⟨last, ⟨last.curReach, taken, fall, last.curSigma, imprecise⟩, hitems, hedges,
    hplace.curReach, rfl, ?_⟩
  have hinfo : last.info = w.info := hplace.info
  rw [hinfo]

section Contributions

variable {w : Walk maps} {m : ZModel} {b p : Nat}

/-- What one predecessor brings to a block. -/
def contribsFrom (F : ForwardContext maps) (w : Walk maps) (b p : Nat) :
    List (Guard × Z3State maps) :=
  match F.blocks[p]?, w.info p with
  | some pb, some pi =>
      if pi.reach = .ff then []
      else
        let taken := if pb.succT = some b then [pi.reach.and pi.edgeTaken] else []
        let fall := if pb.succF = some b then [pi.reach.and pi.edgeFall] else []
        ((taken ++ fall).filter (· ≠ .ff)).map fun g => (g, pi.sigma)
  | _, _ => []

theorem contribs_eq (F : ForwardContext maps) (w : Walk maps) (b : Nat) :
    F.contribs w b =
      ((predsOf F.blocks b).dedup.insertionSort (· ≤ ·)).flatMap (contribsFrom F w b) := rfl

/-- The edge guards of every visited block are what they are for its branch. -/
def GuardsOk (F : ForwardContext maps) (w : Walk maps) (m : ZModel) : Prop :=
  ∀ p block info, F.blocks[p]? = some block → w.info p = some info →
    EdgeGuards m block info.edgeTaken info.edgeFall

/-- A contribution with a true guard comes along the edge that is followed. -/
theorem leads_of_contrib (hlinked : WellLinked F.blocks) (hguards : GuardsOk F w m)
    {c : Guard × Z3State maps} (hc : c ∈ contribsFrom F w b p) (htrue : c.1.eval m = true) :
    w.Reached m p ∧ F.leads w m p = some b := by
  unfold contribsFrom at hc
  split at hc
  · rename_i pb pi hpb hpi
    have hedges := hguards p pb pi hpb hpi
    have hsingle := hlinked.single pb (List.mem_of_getElem? hpb)
    split at hc
    · cases hc
    · obtain ⟨g, hg, rfl⟩ := List.mem_map.mp hc
      have hg := List.mem_of_mem_filter hg
      simp only [leads, hpb, hpi]
      rcases List.mem_append.mp hg with hg | hg
      · split at hg
        · rename_i hsucc
          obtain rfl := List.mem_singleton.mp hg
          rw [Guard.eval_and, Bool.and_eq_true] at htrue
          refine ⟨⟨pi, hpi, htrue.1⟩, ?_⟩
          unfold Block.follow
          split
          · rw [htrue.2, if_pos rfl, hsucc]
          · rw [hsucc, Option.some_or]
        · cases hg
      · split at hg
        · rename_i hsucc
          obtain rfl := List.mem_singleton.mp hg
          rw [Guard.eval_and, Bool.and_eq_true] at htrue
          refine ⟨⟨pi, hpi, htrue.1⟩, ?_⟩
          unfold Block.follow
          split
          · rename_i hbranch
            have hfall := hedges.branch hbranch
            rw [htrue.2] at hfall
            rw [if_neg (by simpa using hfall.symm), hsucc]
          · rename_i hbranch
            have hT : pb.succT = none := by
              rcases hsingle (by simpa using hbranch) with hT | hF
              · exact hT
              · rw [hF] at hsucc
                cases hsucc
            rw [hT, Option.none_or, hsucc]
        · cases hg
  · cases hc

/-- The guards of a block's edges into `b`. -/
def sides (block : Block) (b : Nat) (taken fall : Guard) : List Guard :=
  (if block.succT = some b then [taken] else []) ++ (if block.succF = some b then [fall] else [])

/-- Of opposite guards the one of the side that is followed holds alone. -/
theorem sole_sides_branch {block : Block} {taken fall : Guard}
    (hopposite : fall.eval m = !taken.eval m)
    (h : (if taken.eval m then block.succT else block.succF) = some b) :
    ∃ g, Lib.Sole (Guard.eval m) g (sides block b taken fall) := by
  unfold sides
  split at h
  · rename_i htrue
    refine ⟨taken, Lib.Sole.append_right ?_ fun g hg => ?_⟩
    · rw [if_pos h]
      exact Lib.sole_singleton htrue
    · split at hg
      · obtain rfl := List.mem_singleton.mp hg
        rw [hopposite, htrue]
        rfl
      · cases hg
  · rename_i hfalse
    rw [Bool.not_eq_true] at hfalse
    refine ⟨fall, Lib.Sole.append_left ?_ fun g hg => ?_⟩
    · rw [if_pos h]
      refine Lib.sole_singleton ?_
      rw [hopposite, hfalse]
      rfl
    · split at hg
      · obtain rfl := List.mem_singleton.mp hg
        exact hfalse
      · cases hg

/-- A block with one side leaves by it. -/
theorem sole_sides_single {block : Block} {taken fall : Guard} (htaken : taken.eval m = true)
    (hfall : fall.eval m = true) (hsingle : block.succT = none ∨ block.succF = none)
    (h : block.succT.or block.succF = some b) :
    ∃ g, Lib.Sole (Guard.eval m) g (sides block b taken fall) := by
  unfold sides
  rcases Option.or_eq_some_iff.mp h with hsucc | ⟨hnone, hsucc⟩
  · have hnone : block.succF = none := by
      rcases hsingle with h | h
      · rw [h] at hsucc
        cases hsucc
      · exact h
    refine ⟨taken, ?_⟩
    rw [if_pos hsucc, hnone, if_neg (by simp), List.append_nil]
    exact Lib.sole_singleton htaken
  · refine ⟨fall, ?_⟩
    rw [if_pos hsucc, hnone, if_neg (by simp), List.nil_append]
    exact Lib.sole_singleton hfall

/-- The predecessor that is left towards the block brings one contribution that holds. -/
theorem sole_contribsFrom (hlinked : WellLinked F.blocks) (hguards : GuardsOk F w m)
    (hreached : w.Reached m p) (hleads : F.leads w m p = some b) :
    ∃ info g, w.info p = some info ∧
      Lib.Sole (fun c => c.1.eval m) (g, info.sigma) (contribsFrom F w b p) := by
  obtain ⟨info, hinfo, hreach⟩ := hreached
  unfold leads at hleads
  split at hleads
  · rename_i pb pi hpb hpi
    obtain rfl := Option.some.inj (hpi.symm.trans hinfo)
    have hedges := hguards p pb pi hpb hpi
    have hne : pi.reach ≠ .ff := by
      intro hff
      rw [hff] at hreach
      cases hreach
    have hand : ∀ g : Guard, (pi.reach.and g).eval m = g.eval m := by
      intro g
      rw [Guard.eval_and, hreach, Bool.true_and]
    have hsides : ∃ g, Lib.Sole (Guard.eval m) g
        (sides pb b (pi.reach.and pi.edgeTaken) (pi.reach.and pi.edgeFall)) := by
      unfold Block.follow at hleads
      split at hleads
      · rename_i hbranch
        apply sole_sides_branch
        · rw [hand, hand]
          exact hedges.branch hbranch
        · rw [hand]
          exact hleads
      · rename_i hbranch
        rw [Bool.not_eq_true] at hbranch
        obtain ⟨hT, hF⟩ := hedges.single hbranch
        have hlinks := hlinked.single pb (List.mem_of_getElem? hpb) hbranch
        refine sole_sides_single ?_ ?_ hlinks hleads
        · rw [hand, hT]
          rfl
        · rw [hand, hF]
          rfl
    obtain ⟨g, hsole⟩ := hsides
    have htrue : g.eval m = true := hsole.choose_spec.choose_spec.2.1
    have hkeep : decide (g ≠ .ff) = true := by
      refine decide_eq_true fun hff => ?_
      rw [hff] at htrue
      cases htrue
    refine ⟨pi, g, hpi, ?_⟩
    simp only [contribsFrom, hpb, hpi, if_neg hne]
    apply Lib.Sole.map (f := fun g => (g, pi.sigma)) fun _ => rfl
    exact hsole.filter hkeep
  · cases hleads

end Contributions

section Front

variable {w w' : Walk maps} {m : ZModel} {done : List Nat} {last : Option Nat} {b : Nat}

/-- The block that the path enters next, when `last` is where it is. -/
def nextBlock (F : ForwardContext maps) (w : Walk maps) (m : ZModel) : Option Nat → Option Nat
  | none => some 0
  | some q => F.leads w m q

/-- The walk has visited the blocks `done`, and `last` is the last of them on the path. -/
structure Front (F : ForwardContext maps) (w : Walk maps) (m : ZModel) (done : List Nat)
    (last : Option Nat) : Prop where
  visited : ∀ b, (w.info b).isSome ↔ b ∈ done
  guards : GuardsOk F w m
  entry : 0 ∈ done ↔ last.isSome
  before : last = none → ∀ b, ¬w.Reached m b
  stands : ∀ q, last = some q → w.Reached m q
  new : ∀ c, nextBlock F w m last = some c → c ∉ done
  passed : ∀ b, w.Reached m b → last ≠ some b → ∃ c ∈ done, F.leads w m b = some c
  closed : ∀ b c, w.Reached m b → F.leads w m b = some c → c ∈ done → w.Reached m c
  origin : ∀ b, w.Reached m b → b = 0 ∨ ∃ q, w.Reached m q ∧ F.leads w m q = some b

theorem front_start (F : ForwardContext maps) (m : ZModel) {w : Walk maps}
    (h : w.info = fun _ => none) : Front F w m [] none := by
  have hnone : ∀ b, ¬w.Reached m b := by
    rintro b ⟨info, hinfo, -⟩
    rw [h] at hinfo
    cases hinfo
  refine ⟨fun b => by simp [h], fun p block info _ hinfo => ?_, by simp, fun _ => hnone, nofun,
    fun _ _ => by simp, fun b hb => absurd hb (hnone b), fun b _ hb => absurd hb (hnone b),
    fun b hb => absurd hb (hnone b)⟩
  rw [h] at hinfo
  cases hinfo

/-- A block that is entered along the path gets one contribution that holds, the state
at the end of the last block; any other block gets none. -/
theorem Front.contribs (hlinked : WellLinked F.blocks) (h : Front F w m done last)
    (hb : b < F.blocks.length) (hnew : b ∉ done) :
    (∀ q, last = some q → F.leads w m q = some b → ∃ info g, w.info q = some info ∧
      Lib.Sole (fun c => c.1.eval m) (g, info.sigma) (F.contribs w b)) ∧
    (nextBlock F w m last ≠ some b → ∀ c ∈ F.contribs w b, c.1.eval m = false) := by
  have hfrom : ∀ p, ∀ c ∈ contribsFrom F w b p, c.1.eval m = true →
      last = some p ∧ F.leads w m p = some b := by
    intro p c hc htrue
    obtain ⟨hreached, hleads⟩ := leads_of_contrib hlinked h.guards hc htrue
    refine ⟨?_, hleads⟩
    by_contra hpassed
    obtain ⟨d, hd, hleads'⟩ := h.passed p hreached hpassed
    obtain rfl := Option.some.inj (hleads.symm.trans hleads')
    exact hnew hd
  rw [contribs_eq]
  constructor
  · rintro q rfl hleads
    obtain ⟨info, g, hinfo, hsole⟩ :=
      sole_contribsFrom hlinked h.guards (h.stands q rfl) hleads
    refine ⟨info, g, hinfo, Lib.sole_flatMap ?_ ?_ hsole ?_⟩
    · exact (List.perm_insertionSort _ _).nodup_iff.mpr (List.nodup_dedup _)
    · rw [List.mem_insertionSort, List.mem_dedup, mem_predsOf hlinked hb]
      exact mem_succsOf_of_leads hleads
    · intro p _ hne c hc
      by_contra htrue
      obtain ⟨hlast, -⟩ := hfrom p c hc (by simpa using htrue)
      exact hne (Option.some.inj hlast).symm
  · intro hnext c hc
    obtain ⟨p, -, hc⟩ := List.mem_flatMap.mp hc
    by_contra htrue
    obtain ⟨rfl, hleads⟩ := hfrom p c hc (by simpa using htrue)
    exact hnext hleads

/-- The reach condition of the block that is entered. -/
theorem Front.reach_enterBlock (hlinked : WellLinked F.blocks) (h : Front F w m done last)
    (hb : b < F.blocks.length) (hnew : b ∉ done) :
    (F.enterBlock w b).curReach.eval m = true ↔ nextBlock F w m last = some b := by
  obtain ⟨htrue, hfalse⟩ := h.contribs hlinked hb hnew
  have hentry : b = 0 → last = none := by
    rintro rfl
    have := h.entry.not.mp hnew
    simpa using this
  unfold enterBlock
  split
  rename_i heq
  split at heq
  · rename_i hzero
    cases heq
    rw [hentry hzero, hzero]
    exact iff_of_true rfl rfl
  · rename_i hzero
    cases heq
    dsimp only
    rw [Guard.eval_orAll, List.any_map]
    constructor
    · intro hany
      by_contra hnext
      obtain ⟨c, hc, hholds⟩ := List.any_eq_true.mp hany
      have hfalse := hfalse hnext c hc
      rw [Function.comp_apply, hfalse] at hholds
      cases hholds
    · intro hnext
      cases hlast : last with
      | none =>
          rw [hlast] at hnext
          exact absurd (Option.some.inj hnext).symm hzero
      | some q =>
          rw [hlast] at hnext
          obtain ⟨info, g, -, hsole⟩ := htrue q hlast hnext
          exact hsole.any

theorem Visits.info {block : Block} {end_ : Walk maps} {info : ForwardInfo maps}
    (h : Visits (F := F) w w' b block end_ info) : w'.info = Function.update w.info b (some info) := by
  rw [h.result]

section Visit

variable {block : Block} {info : ForwardInfo maps} {c : Nat}

/-- A visit of a block leaves what is known of the others. -/
theorem reached_of_ne (hinfo : w'.info = Function.update w.info b (some info)) (hc : c ≠ b) :
    w'.Reached m c ↔ w.Reached m c := by
  unfold Walk.Reached
  rw [hinfo, Function.update_of_ne hc]

theorem leads_of_ne (hinfo : w'.info = Function.update w.info b (some info)) (hc : c ≠ b) :
    F.leads w' m c = F.leads w m c := by
  unfold leads
  rw [hinfo, Function.update_of_ne hc]

theorem reached_visited (hinfo : w'.info = Function.update w.info b (some info)) :
    w'.Reached m b ↔ info.reach.eval m = true := by
  unfold Walk.Reached
  rw [hinfo, Function.update_self]
  simp

theorem GuardsOk.visit (h : GuardsOk F w m)
    (hinfo : w'.info = Function.update w.info b (some info)) (hblock : F.blocks[b]? = some block)
    (hedges : EdgeGuards m block info.edgeTaken info.edgeFall) : GuardsOk F w' m := by
  intro p pb pi hpb hpi
  rw [hinfo] at hpi
  by_cases hp : p = b
  · subst hp
    rw [Function.update_self] at hpi
    obtain rfl := Option.some.inj hpi
    obtain rfl := Option.some.inj (hblock.symm.trans hpb)
    exact hedges
  · rw [Function.update_of_ne hp] at hpi
    exact h p pb pi hpb hpi

namespace Front

theorem mem_of_reached (h : Front F w m done last) (hc : w.Reached m c) : c ∈ done := by
  obtain ⟨i, hi, -⟩ := hc
  exact (h.visited c).mp (by rw [hi]; rfl)

theorem ne_of_reached (h : Front F w m done last) (hnew : b ∉ done) (hc : w.Reached m c) :
    c ≠ b := by
  rintro rfl
  exact hnew (h.mem_of_reached hc)

/-- Who leads to a new block is where the path stands. -/
theorem last_of_leads (h : Front F w m done last) (hnew : b ∉ done) (hc : w.Reached m c)
    (hlead : F.leads w m c = some b) : last = some c := by
  by_contra hpassed
  obtain ⟨d, hd, hcd⟩ := h.passed c hc hpassed
  obtain rfl := Option.some.inj (hlead.symm.trans hcd)
  exact hnew hd

variable (h : Front F w m done last) (hnew : b ∉ done)
  (hinfo : w'.info = Function.update w.info b (some info))

include h hinfo

theorem visited_visit : ∀ c, (w'.info c).isSome ↔ c ∈ done ++ [b] := by
  intro c
  rw [hinfo, List.mem_append, List.mem_singleton, ← h.visited c]
  by_cases hc : c = b
  · simp [hc]
  · simp [hc]

include hnew

theorem origin_visit (hc : w.Reached m c) :
    c = 0 ∨ ∃ q, w'.Reached m q ∧ F.leads w' m q = some c := by
  rcases h.origin c hc with hzero | ⟨q, hq, hqc⟩
  · exact .inl hzero
  · have hne := h.ne_of_reached hnew hq
    exact .inr ⟨q, (reached_of_ne hinfo hne).mpr hq, (leads_of_ne hinfo hne).trans hqc⟩

/-- The path does not move on while another block is visited. -/
theorem nextBlock_visit : nextBlock F w' m last = nextBlock F w m last := by
  cases hlast : last with
  | none => rfl
  | some q => exact leads_of_ne hinfo (h.ne_of_reached hnew (h.stands q hlast))

variable (hblock : F.blocks[b]? = some block)
  (hedges : EdgeGuards m block info.edgeTaken info.edgeFall)
  (hreach : info.reach.eval m = true ↔ nextBlock F w m last = some b)

include hblock hedges hreach

/-- A visit of the block that the path enters. -/
theorem enter (hlater : ∀ u ∈ succsOf F.blocks b, u ∉ done ++ [b])
    (hnext : nextBlock F w m last = some b) : Front F w' m (done ++ [b]) (some b) := by
  have hb : w'.Reached m b := (reached_visited hinfo).mpr (hreach.mpr hnext)
  have hahead : ∀ {c}, F.leads w' m b = some c → c ∉ done ++ [b] := fun hc =>
    hlater _ (mem_succsOf_of_leads hc)
  refine ⟨h.visited_visit hinfo, h.guards.visit hinfo hblock hedges, ?_, nofun, ?_, ?_, ?_, ?_, ?_⟩
  · refine iff_of_true ?_ rfl
    cases hlast : last with
    | none =>
        rw [hlast] at hnext
        obtain rfl := Option.some.inj hnext
        simp
    | some q => exact List.mem_append_left _ (h.entry.mpr (by rw [hlast]; rfl))
  · rintro q hq
    obtain rfl := Option.some.inj hq
    exact hb
  · exact fun c hc => hahead hc
  · intro c hc hpassed
    have hcb : c ≠ b := fun hcb => hpassed (by rw [hcb])
    have hc' := (reached_of_ne hinfo hcb).mp hc
    rw [leads_of_ne hinfo hcb]
    by_cases hlast : last = some c
    · rw [hlast] at hnext
      exact ⟨b, by simp, hnext⟩
    · obtain ⟨d, hd, hcd⟩ := h.passed c hc' hlast
      exact ⟨d, List.mem_append_left _ hd, hcd⟩
  · intro c d hc hcd hd
    by_cases hcb : c = b
    · subst hcb
      exact absurd hd (hahead hcd)
    · by_cases hdb : d = b
      · exact hdb ▸ hb
      · have hd : d ∈ done := by simpa [hdb] using hd
        have hc' := (reached_of_ne hinfo hcb).mp hc
        rw [leads_of_ne hinfo hcb] at hcd
        exact (reached_of_ne hinfo hdb).mpr (h.closed c d hc' hcd hd)
  · intro c hc
    by_cases hcb : c = b
    · subst hcb
      cases hlast : last with
      | none =>
          rw [hlast] at hnext
          exact .inl (Option.some.inj hnext).symm
      | some q =>
          rw [hlast] at hnext
          have hq := h.stands q hlast
          have hne := h.ne_of_reached hnew hq
          exact .inr ⟨q, (reached_of_ne hinfo hne).mpr hq, (leads_of_ne hinfo hne).trans hnext⟩
    · exact h.origin_visit hnew hinfo ((reached_of_ne hinfo hcb).mp hc)

/-- A visit of a block beside the path. -/
theorem pass (hnext : nextBlock F w m last ≠ some b) : Front F w' m (done ++ [b]) last := by
  have hne : ∀ {c}, w'.Reached m c → c ≠ b := by
    rintro c hc rfl
    exact hnext (hreach.mp ((reached_visited hinfo).mp hc))
  have hold : ∀ {c}, w'.Reached m c → w.Reached m c := fun hc =>
    (reached_of_ne hinfo (hne hc)).mp hc
  refine ⟨h.visited_visit hinfo, h.guards.visit hinfo hblock hedges, ?_, ?_, ?_, ?_, ?_, ?_, ?_⟩
  · rw [← h.entry, List.mem_append, List.mem_singleton, or_iff_left]
    rintro rfl
    have hnone : last = none := by simpa using h.entry.not.mp hnew
    exact hnext (by rw [hnone]; rfl)
  · exact fun hnone c hc => h.before hnone c (hold hc)
  · intro q hq
    have hq := h.stands q hq
    exact (reached_of_ne hinfo (h.ne_of_reached hnew hq)).mpr hq
  · intro c hc
    rw [h.nextBlock_visit hnew hinfo] at hc
    rw [List.mem_append, List.mem_singleton, not_or]
    exact ⟨h.new c hc, fun hcb => hnext (hcb ▸ hc)⟩
  · intro c hc hpassed
    obtain ⟨d, hd, hcd⟩ := h.passed c (hold hc) hpassed
    exact ⟨d, List.mem_append_left _ hd, (leads_of_ne hinfo (hne hc)).trans hcd⟩
  · intro c d hc hcd hd
    rw [leads_of_ne hinfo (hne hc)] at hcd
    have hdb : d ≠ b := by
      rintro rfl
      have hlast := h.last_of_leads hnew (hold hc) hcd
      rw [hlast] at hnext
      exact hnext hcd
    have hd : d ∈ done := by simpa [hdb] using hd
    exact (reached_of_ne hinfo hdb).mpr (h.closed c d (hold hc) hcd hd)
  · exact fun c hc => h.origin_visit hnew hinfo (hold hc)

end Front

/-- One more block. -/
theorem Front.walkBlock (hlinked : WellLinked F.blocks) (h : Front F w m done last)
    (hblock : F.blocks[b]? = some block) (hnew : b ∉ done)
    (hlater : ∀ u ∈ succsOf F.blocks b, u ∉ done ++ [b]) {final : Walk maps}
    (hvisit : Visits (F := F) w w' b block final info) :
    Front F w' m (done ++ [b]) (if nextBlock F w m last = some b then some b else last) := by
  have hb : b < F.blocks.length := (List.getElem?_eq_some_iff.mp hblock).1
  have hedges := edgeGuards_edges m hvisit.edges
  have hreach : info.reach.eval m = true ↔ nextBlock F w m last = some b := by
    rw [hvisit.reach]
    exact h.reach_enterBlock hlinked hb hnew
  split
  · rename_i hnext
    exact h.enter hnew hvisit.info hblock hedges hreach hlater hnext
  · rename_i hnext
    exact h.pass hnew hvisit.info hblock hedges hreach hnext

end Visit

/-- What holds of the entry and passes from a reached block to the one it leads to. The
rank of the blocks goes up along the path. -/
theorem Front.induction_rank (rank : Nat → Nat)
    (hrank : ∀ c d, w.Reached m c → w.Reached m d → F.leads w m c = some d → rank c < rank d)
    (h : Front F w m done last) {P : Nat → Prop} (hentry : w.Reached m 0 → P 0)
    (hstep : ∀ c d, P c → F.leads w m c = some d → w.Reached m d → P d)
    (hb : w.Reached m b) : P b := by
  induction hn : rank b using Nat.strong_induction_on generalizing b with
  | _ n ih =>
      rcases h.origin b hb with rfl | ⟨c, hc, hlead⟩
      · exact hentry hb
      · have hless : rank c < n := hn ▸ hrank c b hc hb hlead
        exact hstep c b (ih (rank c) hless hc rfl) hlead hb

theorem Front.induction (hacyclic : Acyclic F.blocks) (h : Front F w m done last) {P : Nat → Prop}
    (hentry : w.Reached m 0 → P 0)
    (hstep : ∀ c d, P c → F.leads w m c = some d → w.Reached m d → P d)
    (hb : w.Reached m b) : P b := by
  obtain ⟨rank, hrank⟩ := hacyclic
  apply h.induction_rank rank ?_ hentry hstep hb
  intro c d _ _ hlead
  exact hrank c d (mem_succsOf_of_leads hlead)

end Front

end ForwardContext

end Walks

end Hornet
