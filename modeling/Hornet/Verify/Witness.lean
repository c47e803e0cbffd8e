import Hornet.Bpf.FlowGraph
import Hornet.Track.Frame
import Hornet.Verify.Path

/-!
The path of a witness. It is found again from the guards of the edges, one block after
the other, and it goes through every block that the model reaches.
-/

namespace Hornet

open Smt

variable {maps : List MapInfo}

namespace ForwardContext

section Defs

variable (F : ForwardContext maps) (w : Walk maps) (m : ZModel)

/-- What follows a block: the taken edge if its guard is true, or else the other one. -/
def pathNext (info : ForwardInfo maps) (s : Block) : Option Nat :=
  if s.succT.isSome && info.edgeTaken.eval m then s.succT
  else if s.succF.isSome && info.edgeFall.eval m then s.succF
  else none

/-- The path goes on from block `b`. The blocks that it has seen are its own. -/
def pathFrom : Nat → List Nat → Nat → List Nat
  | 0, path, _ => path
  | fuel + 1, path, b =>
      match w.info b, F.blocks[b]? with
      | some info, some s =>
          if s.kind = .exit then path
          else
            match pathNext m info s with
            | none => path
            | some nxt =>
                if nxt ∈ path || (w.info nxt).isNone then path
                else pathFrom fuel (path ++ [nxt]) nxt
      | _, _ => path

/-- The blocks that the model runs through. -/
def path : List Nat := F.pathFrom w m F.blocks.length [0] 0

/-- The model makes the guard of an edge from `x` to `y` true. -/
def FollowsEdge (x y : Nat) : Prop :=
  ∃ info s, w.info x = some info ∧ F.blocks[x]? = some s ∧
    ((s.succT = some y ∧ info.edgeTaken.eval m = true) ∨
      (s.succF = some y ∧ info.edgeFall.eval m = true))

/-- Where a path ends: at an exit, at a block without successors, or before a block that
was left out of the walk. -/
def PathEnd (x : Nat) : Prop :=
  (∃ s, F.blocks[x]? = some s ∧ s.kind = .exit) ∨ succsOf F.blocks x = [] ∨
    ∃ y, F.FollowsEdge w m x y ∧ w.info y = none

end Defs

variable {F : ForwardContext maps} {w : Walk maps} {m : ZModel} {kept order : List Nat}
  {last : Option Nat}

/-- The greedy choice is the edge that control follows. -/
theorem pathNext_eq {s : Block} {info : ForwardInfo maps}
    (h : EdgeGuards m s info.edgeTaken info.edgeFall) :
    pathNext m info s = s.follow (info.edgeTaken.eval m) := by
  unfold pathNext Block.follow
  cases hbranch : s.branch with
  | true =>
      rw [h.branch hbranch]
      cases s.succT <;> cases s.succF <;> cases info.edgeTaken.eval m <;> rfl
  | false =>
      obtain ⟨hT, hF⟩ := h.single hbranch
      rw [hT, hF]
      cases s.succT <;> cases s.succF <;> rfl

theorem followsEdge_of_next {x y : Nat} {s : Block} {info : ForwardInfo maps}
    (hinfo : w.info x = some info) (hs : F.blocks[x]? = some s) (h : pathNext m info s = some y) :
    F.FollowsEdge w m x y := by
  refine ⟨info, s, hinfo, hs, ?_⟩
  unfold pathNext at h
  split at h
  · rename_i htaken
    rw [Bool.and_eq_true] at htaken
    exact .inl ⟨h, htaken.2⟩
  · split at h
    · rename_i hfall
      rw [Bool.and_eq_true] at hfall
      exact .inr ⟨h, hfall.2⟩
    · cases h

/-- The walk visits the blocks of its order one by one. -/
theorem front_walk (hlinked : WellLinked F.blocks) (hkept : ∀ b ∈ kept, b < F.blocks.length)
    (horder : WalkOrder F.blocks kept order) (m : ZModel) {done rest : List Nat}
    (hdone : order = done ++ rest) (hrun : done.foldlM F.walkBlock { curSigma := F.initSt } = .ok w) :
    ∃ last, Front F w m done last := by
  refine Lib.foldlM_split_ok (fun done w => ∃ last, Front F w m done last) ?_ ?_ hrun
  · exact ⟨none, front_start F m rfl⟩
  · rintro visited b ahead w w' hvisited ⟨last, hfront⟩ hstep
    have hsplit : order = visited ++ b :: (ahead ++ rest) := by
      rw [hdone, hvisited, List.append_assoc, List.cons_append]
    have hb : b < F.blocks.length := hkept b ((horder.mem b).mp (by simp [hsplit]))
    have hblock : F.blocks[b]? = some F.blocks[b] := List.getElem?_eq_getElem hb
    have hnodup := horder.nodup
    rw [hsplit] at hnodup
    have hnew : b ∉ visited := fun hin =>
      (List.nodup_middle.mp hnodup).notMem (List.mem_append_left _ hin)
    have hlater : ∀ u ∈ succsOf F.blocks b, u ∉ visited ++ [b] := by
      intro u hu hin
      have hmem : u ∈ order := by
        rw [hsplit]
        rcases List.mem_append.mp hin with hin | hin
        · exact List.mem_append_left _ hin
        · exact List.mem_append_right _ (by simpa using .inl (List.mem_singleton.mp hin))
      have hrest := horder.later visited b (ahead ++ rest) hsplit u hu ((horder.mem u).mp hmem)
      have hnodup' : ((visited ++ [b]) ++ (ahead ++ rest)).Nodup := by simpa using hnodup
      exact (List.nodup_append.mp hnodup').2.2 u hin u hrest rfl
    obtain ⟨final, info, hvisit⟩ := visits_walkBlock hblock hstep
    exact ⟨_, hfront.walkBlock hlinked hblock hnew hlater hvisit⟩

/-- What a walk has found when it has ended. -/
theorem front_of_walk (hlinked : WellLinked F.blocks) (hkept : Kept F.blocks kept)
    (horder : WalkOrder F.blocks kept order) (m : ZModel) (hw : F.walk order = .ok w) :
    ∃ last, Front F w m order last := by
  obtain ⟨w', hrun, hw⟩ := Lib.bind_eq_ok.mp hw
  cases hw
  obtain ⟨last, h⟩ := front_walk hlinked
    (fun b hb => (mem_forwardReachable.mp (hkept.live b hb)).2) horder m
    (List.append_nil order).symm hrun
  -- the end of the walk changes where it stands, not what it has found
  exact ⟨last, h.visited, h.guards, h.entry, h.before, h.stands, h.new, h.passed, h.closed,
    h.origin⟩

theorem reachAt_eval_iff (hw : F.walk order = .ok w) (m : ZModel) (x : Nat) :
    (w.reachAt x).eval m = true ↔ w.Reached m x := by
  obtain ⟨w', -, hw⟩ := Lib.bind_eq_ok.mp hw
  cases hw
  cases hinfo : w'.info x with
  | none => simp [Walk.reachAt, hinfo, Walk.Reached]
  | some info => simp [Walk.reachAt, hinfo, Walk.Reached]

section Trails

/-- What holds of the path while it grows. -/
structure Trail (F : ForwardContext maps) (w : Walk maps) (m : ZModel) (order path : List Nat)
    (b : Nat) : Prop where
  first : path.head? = some 0
  last : path.getLast? = some b
  nodup : path.Nodup
  reached : ∀ x ∈ path, w.Reached m x
  chain : ∀ l x y r, path = l ++ x :: y :: r → F.FollowsEdge w m x y
  before : ∀ x ∈ path, order.idxOf x ≤ order.idxOf b

/-- The path goes on to the block that control passes to. -/
theorem Trail.step {path : List Nat} {b c : Nat} (h : Trail F w m order path b)
    (hfollows : F.FollowsEdge w m b c) (hreached : w.Reached m c)
    (hafter : order.idxOf b < order.idxOf c) : Trail F w m order (path ++ [c]) c := by
  have hnew : c ∉ path := fun hin => by
    have := h.before c hin
    omega
  have hne : path ≠ [] := by
    intro hnil
    have hfirst := h.first
    rw [hnil] at hfirst
    cases hfirst
  refine ⟨?_, by simp, ?_, ?_, ?_, ?_⟩
  · rw [List.head?_append_of_ne_nil _ hne]
    exact h.first
  · rw [List.nodup_append]
    refine ⟨h.nodup, by simp, ?_⟩
    rintro x hx y hy rfl
    obtain rfl := List.mem_singleton.mp hy
    exact hnew hx
  · intro x hx
    rcases List.mem_append.mp hx with hx | hx
    · exact h.reached x hx
    · obtain rfl := List.mem_singleton.mp hx
      exact hreached
  · intro l x y r hsplit
    rcases List.eq_nil_or_concat r with rfl | ⟨r', z, rfl⟩
    · -- the step that was just made
      have hsplit' : path ++ [c] = (l ++ [x]) ++ [y] := by rw [hsplit]; simp
      obtain ⟨hpath, hy⟩ := List.append_inj' hsplit' rfl
      obtain rfl : c = y := by simpa using hy
      have hlast := h.last
      rw [hpath, List.getLast?_concat] at hlast
      obtain rfl := Option.some_inj.mp hlast
      exact hfollows
    · have hsplit' : path ++ [c] = (l ++ x :: y :: r') ++ [z] := by rw [hsplit]; simp
      obtain ⟨hpath, -⟩ := List.append_inj' hsplit' rfl
      exact h.chain l x y r' hpath
  · intro x hx
    rcases List.mem_append.mp hx with hx | hx
    · have := h.before x hx
      omega
    · obtain rfl := List.mem_singleton.mp hx
      exact Nat.le_refl _

/-- The greedy choice at a visited block. -/
theorem leads_eq_pathNext (hfront : Front F w m order last) {b : Nat} {s : Block}
    {info : ForwardInfo maps} (hinfo : w.info b = some info) (hs : F.blocks[b]? = some s) :
    F.leads w m b = pathNext m info s := by
  rw [pathNext_eq (hfront.guards b s info hs hinfo), leads, hs, hinfo]

/-- A block from which control goes nowhere has no successors. -/
theorem succsOf_eq_nil {b : Nat} {s : Block} {info : ForwardInfo maps} (hended : s.Ended)
    (hs : F.blocks[b]? = some s) (h : s.follow (info.edgeTaken.eval m) = none) :
    succsOf F.blocks b = [] := by
  have hboth : s.succT = none ∧ s.succF = none := by
    unfold Block.follow at h
    cases hbranch : s.branch with
    | true =>
        obtain ⟨hT, hF⟩ := hended.branch hbranch
        rw [hbranch, if_pos rfl] at h
        split at h
        · rw [h] at hT
          cases hT
        · rw [h] at hF
          cases hF
    | false =>
        rw [hbranch, if_neg (by simp)] at h
        exact Option.or_eq_none_iff.mp h
  simp [succsOf, hs, successors, hboth.1, hboth.2]

/-- The path grows until it has to end. -/
theorem Trail.pathFrom (hended : ∀ s ∈ F.blocks, s.Ended)
    (hkept : ∀ b ∈ kept, b < F.blocks.length) (horder : WalkOrder F.blocks kept order)
    (hfront : Front F w m order last) (fuel : Nat) {path : List Nat} {b : Nat}
    (h : Trail F w m order path b) (hfuel : order.length < path.length + fuel) :
    ∃ e, Trail F w m order (F.pathFrom w m fuel path b) e ∧ F.PathEnd w m e := by
  have hvisited : ∀ {x}, w.Reached m x → x ∈ order := by
    rintro x ⟨info, hinfo, -⟩
    exact (hfront.visited x).mp (by rw [hinfo]; rfl)
  induction fuel generalizing path b with
  | zero =>
      have hlen : path.length ≤ order.length :=
        (h.nodup.subperm fun x hx => hvisited (h.reached x hx)).length_le
      omega
  | succ fuel ih =>
      have hreached : w.Reached m b := h.reached b (List.mem_of_getLast? h.last)
      have hkeptb : b ∈ kept := (horder.mem b).mp (hvisited hreached)
      obtain ⟨info, hinfo, -⟩ := id hreached
      have hlt : b < F.blocks.length := hkept b hkeptb
      have hs : F.blocks[b]? = some F.blocks[b] := List.getElem?_eq_getElem hlt
      have hleads := leads_eq_pathNext hfront hinfo hs
      unfold ForwardContext.pathFrom
      rw [hinfo, hs]
      dsimp only
      split
      · rename_i hexit
        exact ⟨b, h, .inl ⟨_, hs, hexit⟩⟩
      · split
        · rename_i hnone
          refine ⟨b, h, .inr (.inl ?_)⟩
          rw [pathNext_eq (hfront.guards b _ info hs hinfo)] at hnone
          exact succsOf_eq_nil (hended _ (List.mem_of_getElem? hs)) hs hnone
        · rename_i c hc
          have hfollows := followsEdge_of_next hinfo hs hc
          have hlead : F.leads w m b = some c := hleads.trans hc
          cases hcinfo : w.info c with
          | none =>
              rw [if_pos (by simp)]
              exact ⟨b, h, .inr (.inr ⟨c, hfollows, hcinfo⟩)⟩
          | some cinfo =>
              have hcorder : c ∈ order := (hfront.visited c).mp (by rw [hcinfo]; rfl)
              have hafter := horder.idxOf_lt hkeptb ((horder.mem c).mp hcorder)
                (mem_succsOf_of_leads hlead)
              have hnew : c ∉ path := fun hin => by
                have := h.before c hin
                omega
              rw [if_neg (by simp [hnew])]
              have hcreached := hfront.closed b c hreached hlead hcorder
              apply ih (h.step hfollows hcreached hafter)
              simp only [List.length_append, List.length_singleton]
              omega

end Trails

section Reached

theorem exit_of_kind {s : Block} (h : s.kind = .exit) : s.exit = true := by
  unfold Block.kind at h
  split at h
  · cases h
  · split at h
    · cases h
    · split at h
      · assumption
      · cases h

/-- The edges out of a block exclude each other: control takes the one whose guard holds. -/
theorem leads_of_followsEdge (hlinked : WellLinked F.blocks) (hfront : Front F w m order last)
    {x y : Nat} (h : F.FollowsEdge w m x y) : F.leads w m x = some y := by
  obtain ⟨info, s, hinfo, hs, hedge⟩ := h
  have hguards := hfront.guards x s info hs hinfo
  rw [leads, hs, hinfo]
  dsimp only
  unfold Block.follow
  rcases hedge with ⟨hsucc, htrue⟩ | ⟨hsucc, htrue⟩
  · rw [htrue, if_pos rfl, hsucc, Option.some_or, ite_self]
  · cases hbranch : s.branch with
    | true =>
        have hopposite := hguards.branch hbranch
        rw [htrue] at hopposite
        rw [if_pos rfl, if_neg (by simpa using hopposite.symm), hsucc]
    | false =>
        have hT : s.succT = none := by
          rcases hlinked.single s (List.mem_of_getElem? hs) hbranch with hT | hF
          · exact hT
          · rw [hF] at hsucc
            cases hsucc
        rw [if_neg (by simp), hT, Option.none_or, hsucc]

/-- Along a trail that has ended, control stays on it. -/
theorem Trail.closed {path : List Nat} {e x c : Nat} (hlinked : WellLinked F.blocks)
    (hended : ∀ s ∈ F.blocks, s.Ended) (hfront : Front F w m order last) (h : Trail F w m order path e) (hend : F.PathEnd w m e)
    (hx : x ∈ path) (hlead : F.leads w m x = some c) (hc : c ∈ order) : c ∈ path := by
  obtain ⟨l, r, rfl⟩ := List.append_of_mem hx
  cases r with
  | cons y r =>
      have hnext := leads_of_followsEdge hlinked hfront (h.chain l x y r rfl)
      obtain rfl := Option.some_inj.mp (hlead.symm.trans hnext)
      simp
  | nil =>
      have hlast := h.last
      rw [List.getLast?_concat] at hlast
      obtain rfl := Option.some_inj.mp hlast
      have hsucc := mem_succsOf_of_leads hlead
      rcases hend with ⟨s, hs, hkind⟩ | hnone | ⟨y, hfollows, hy⟩
      · obtain ⟨s', hs', hedge⟩ := mem_succsOf.mp hsucc
        obtain rfl := Option.some_inj.mp (hs.symm.trans hs')
        obtain ⟨hT, hF⟩ := (hended s (List.mem_of_getElem? hs)).exit (exit_of_kind hkind)
        rw [hT, hF] at hedge
        simp at hedge
      · rw [hnone] at hsucc
        cases hsucc
      · have hnext := leads_of_followsEdge hlinked hfront hfollows
        obtain rfl := Option.some_inj.mp (hlead.symm.trans hnext)
        have hvisited := (hfront.visited c).mpr hc
        rw [hy] at hvisited
        cases hvisited

/-- The path of a model goes through every block that the model reaches. -/
theorem mem_path_of_reached (hlinked : WellLinked F.blocks) (hended : ∀ s ∈ F.blocks, s.Ended)
    (hkept : Kept F.blocks kept) (horder : WalkOrder F.blocks kept order)
    (hfront : Front F w m order last) :
    ∃ e, Trail F w m order (F.path w m) e ∧ F.PathEnd w m e ∧
      ∀ b, w.Reached m b → b ∈ F.path w m := by
  have hbounded : ∀ b ∈ kept, b < F.blocks.length := fun b hb =>
    (mem_forwardReachable.mp (hkept.live b hb)).2
  have hzero : 0 ∈ order := (horder.mem 0).mpr hkept.entry
  have hvisited : ∀ {x}, w.Reached m x → x ∈ order := by
    rintro x ⟨info, hinfo, -⟩
    exact (hfront.visited x).mp (by rw [hinfo]; rfl)
  have hrank : ∀ c d, w.Reached m c → w.Reached m d → F.leads w m c = some d →
      order.idxOf c < order.idxOf d := by
    intro c d hc hd hlead
    exact horder.idxOf_lt ((horder.mem c).mp (hvisited hc)) ((horder.mem d).mp (hvisited hd))
      (mem_succsOf_of_leads hlead)
  have hentry : w.Reached m 0 := by
    obtain ⟨q, hq⟩ := Option.isSome_iff_exists.mp (hfront.entry.mp hzero)
    exact hfront.induction_rank order.idxOf hrank (P := fun _ => w.Reached m 0)
      (fun h => h) (fun _ _ h _ _ => h) (hfront.stands q hq)
  have hstart : Trail F w m order [0] 0 := by
    refine ⟨rfl, rfl, List.nodup_singleton 0, ?_, ?_, ?_⟩
    · intro x hx
      obtain rfl := List.mem_singleton.mp hx
      exact hentry
    · intro l x y r hsplit
      have hlen := congrArg List.length hsplit
      simp at hlen
      omega
    · intro x hx
      obtain rfl := List.mem_singleton.mp hx
      exact Nat.le_refl _
  have hfuel : order.length < [0].length + F.blocks.length := by
    have hsub : order.Subperm (List.range F.blocks.length) :=
      horder.nodup.subperm fun b hb => List.mem_range.mpr (hbounded b ((horder.mem b).mp hb))
    have hlen := hsub.length_le
    rw [List.length_range] at hlen
    rw [List.length_singleton]
    omega
  obtain ⟨e, htrail, hend⟩ := hstart.pathFrom hended hbounded horder hfront _ hfuel
  refine ⟨e, htrail, hend, ?_⟩
  intro b hb
  apply hfront.induction_rank order.idxOf hrank (P := (· ∈ F.path w m)) ?_ ?_ hb
  · intro _
    exact List.mem_of_mem_head? htrail.first
  · intro c d hc hlead hd
    exact htrail.closed hlinked hended hfront hend hc hlead (hvisited hd)

end Reached

end ForwardContext

section Tracked

variable {instrs : List Instr} {progs : List ProgRegion} {cfg : List Block} {P : Program}
  {t : Tracker}

/-- The tracked blocks are linked as the graph is. -/
theorem sameGraph_track (h : track P cfg = .ok t) : SameGraph cfg t.blocks := by
  have hgraph := congrArg (List.map fun f => (f.1, f.2.1)) (frames_track h)
  rw [List.map_map, List.map_map] at hgraph
  exact hgraph.symm

theorem ended_track (hcfg : buildCfg instrs progs = .ok cfg) (h : track P cfg = .ok t) :
    ∀ s ∈ t.blocks, s.Ended := by
  intro s hs
  have hmem : s.frame ∈ cfg.map Block.frame := frames_track h ▸ List.mem_map_of_mem hs
  obtain ⟨c, hc, hframe⟩ := List.mem_map.mp hmem
  have hended := ended_buildCfg hcfg c hc
  have hlinks : c.links = s.links := congrArg (·.1) hframe
  have hexit : c.exit = s.exit := congrArg (·.2.2.1) hframe
  have hT : c.succT = s.succT := congrArg Links.succT hlinks
  have hF : c.succF = s.succF := congrArg Links.succF hlinks
  have hbranch : c.branch = s.branch := congrArg Links.branch hlinks
  constructor
  · rw [← hexit, ← hT, ← hF]
    exact hended.exit
  · rw [← hbranch, ← hT, ← hF]
    exact hended.branch

theorem length_track_pos (hcfg : buildCfg instrs progs = .ok cfg) (h : track P cfg = .ok t) :
    0 < t.blocks.length := by
  have hlen := congrArg List.length (frames_track h)
  rw [List.length_map, List.length_map, (linkedTo_buildCfg hcfg).length] at hlen
  rw [hlen]
  exact (List.getElem?_eq_some_iff.mp (leaders_zero instrs progs)).1

end Tracked

open ForwardContext in
/-- The path that is shown for a witness starts at the entry, follows edges whose guards the
model makes true, visits reached blocks only, and goes through every block that is reached:
it ends at an exit, at a block without successors, or before a block that was left out. -/
theorem path_through_reached {instrs : List Instr} {progs : List ProgRegion} {cfg : List Block}
    {P : Program} {t : Tracker} (hcfg : buildCfg instrs progs = .ok cfg)
    (htrack : track P cfg = .ok t) (F : ForwardContext maps) (hblocks : F.blocks = t.blocks)
    {targets : Option (List Nat)} {order : List Nat}
    (horder : topoOrder F.blocks (keptBlocks F.blocks targets) = .ok order) {w : Walk maps}
    (hw : F.walk order = .ok w) (m : ZModel) {b : Nat} (hb : (w.reachAt b).eval m = true) :
    (F.path w m).head? = some 0 ∧ b ∈ F.path w m ∧
      (∀ l x y r, F.path w m = l ++ x :: y :: r → F.FollowsEdge w m x y) ∧
      (∀ x ∈ F.path w m, (w.reachAt x).eval m = true) ∧
      ∃ e, (F.path w m).getLast? = some e ∧ F.PathEnd w m e := by
  have hlinked : WellLinked F.blocks :=
    wellLinked_of_sameGraph (hblocks ▸ sameGraph_track htrack) (wellLinked_buildCfg hcfg)
  have hended : ∀ s ∈ F.blocks, s.Ended := hblocks ▸ ended_track hcfg htrack
  have hentry : 0 < F.blocks.length := hblocks ▸ length_track_pos hcfg htrack
  have hkept := kept_keptBlocks hentry targets
  have hwalk := walkOrder_of_topoOrder hkept horder
  obtain ⟨last, hfront⟩ := front_of_walk hlinked hkept hwalk m hw
  have hreach := reachAt_eval_iff hw m
  obtain ⟨e, htrail, hend, hall⟩ := mem_path_of_reached hlinked hended hkept hwalk hfront
  refine ⟨htrail.first, hall b ((hreach b).mp hb), htrail.chain, ?_, e, htrail.last, hend⟩
  intro x hx
  exact (hreach x).mpr (htrail.reached x hx)

open ForwardContext in
theorem path_through_reached_queue :
    ∃ w, (plainContext (trackedBlocks queueReset)).walk [0, 1, 2] = .ok w ∧
      2 ∈ (plainContext (trackedBlocks queueReset)).path w
        (Model.ofNats fun v => if v = .rxQueueIndex0 then some 3 else none) := by
  obtain ⟨cfg, t, hcfg, htrack, hblocks⟩ : ∃ cfg t, buildCfg queueReset [] = .ok cfg ∧
      track { instrs := queueReset, maps := [], progs := [], rodata := [] } cfg = .ok t ∧
      trackedBlocks queueReset = t.blocks := ⟨_, _, rfl, rfl, rfl⟩
  have hthree : topoOrder (trackedBlocks queueReset)
      (keptBlocks (trackedBlocks queueReset) none) = .ok [0, 1, 2] := by decide +kernel
  have hreached : Lib.okAnd ((plainContext (trackedBlocks queueReset)).walk [0, 1, 2]) (fun w =>
      (w.reachAt 2).eval (Model.ofNats fun v => if v = .rxQueueIndex0 then some 3 else none)) =
        true := by
    decide +kernel
  obtain ⟨w, hw, hreached⟩ := Lib.okAnd_eq_true hreached
  exact ⟨w, hw, (path_through_reached hcfg htrack (plainContext (trackedBlocks queueReset)) hblocks
    hthree hw _ hreached).2.1⟩

end Hornet
