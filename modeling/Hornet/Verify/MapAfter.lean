import Hornet.Track.MapRefine
import Hornet.Verify.Executed
import Hornet.Verify.SlicedWalk

/-!
The arrays of a map on the path of a model. A block in which the map is not written leaves
them, so what an update makes of them is still there where no other write comes after it.
-/

namespace Hornet

open Smt Lib

variable {maps : List MapInfo} {m : ZModel}

namespace ForwardContext

section Visit

variable {F : ForwardContext maps} {w : Walk maps} {kept order done rest : List Nat} {b : Nat}

/-- A visit changes what is known of its own block only. -/
theorem info_walkBlock {w w' : Walk maps} (h : F.walkBlock w b = .ok w') {c : Nat} (hc : c ≠ b) :
    w'.info c = w.info c := by
  cases hblock : F.blocks[b]? with
  | none =>
      unfold walkBlock at h
      rw [hblock] at h
      cases h
      rfl
  | some block =>
      obtain ⟨last, info, hvisit⟩ := visits_walkBlock hblock h
      rw [hvisit.info, Function.update_of_ne hc]

/-- The visit of one block of a finished walk, and what was known before it. -/
theorem visit_of_walk (hw : F.walk order = .ok w) (hnodup : order.Nodup)
    (hsplit : order = done ++ b :: rest) {block : Block} (hblock : F.blocks[b]? = some block) :
    ∃ w₀ w₁ last info, done.foldlM F.walkBlock { curSigma := F.initSt } = .ok w₀ ∧
      Visits (F := F) w₀ w₁ b block last info ∧ w.info b = some info ∧
      ∀ c ∈ done, w.info c = w₀.info c := by
  obtain ⟨w', hrun, hw⟩ := bind_eq_ok.mp hw
  cases hw
  rw [hsplit] at hrun hnodup
  rw [List.foldlM_append] at hrun
  obtain ⟨w₀, hdone, hrun⟩ := bind_eq_ok.mp hrun
  rw [List.foldlM_cons] at hrun
  obtain ⟨w₁, hvisited, hrest⟩ := bind_eq_ok.mp hrun
  obtain ⟨last, info, hvisit⟩ := visits_walkBlock hblock hvisited
  have hkept : ∀ c ∉ rest, w'.info c = w₁.info c := by
    intro c hc
    refine foldlM_ok (fun _ x => x.info c = w₁.info c) rfl ?_ hrest
    intro _ d x x' hx hd hstep
    rw [info_walkBlock hstep fun (hcd : c = d) => hc (hcd ▸ hd), hx]
  obtain ⟨hb, hnodup'⟩ := List.nodup_cons.mp (List.nodup_middle.mp hnodup)
  have hdisjoint := (List.nodup_append.mp hnodup').2.2
  refine ⟨w₀, w₁, last, info, hdone, hvisit, ?_, ?_⟩
  · show w'.info b = some info
    rw [hkept b fun h => hb (List.mem_append_right _ h), hvisit.info, Function.update_self]
  · intro c hc
    show w'.info c = w₀.info c
    rw [hkept c fun h => hdisjoint c hc c h rfl, hvisit.info, Function.update_of_ne]
    rintro rfl
    exact hb (List.mem_append_left _ hc)

end Visit

section Arrays

variable {F : ForwardContext maps} {w w' : Walk maps} {kept order done : List Nat}
  {a b mapId : Nat}

/-- An item that does not write to a map leaves its arrays. -/
theorem map_walkItem {item : Item} (h : F.walkItem b w item = .ok w')
    (hitem : ∀ e, item = .act e → e.action.writeRegion ≠ some (.map (some mapId))) :
    w'.curSigma.map mapId = w.curSigma.map mapId := by
  cases item with
  | src e =>
      simp only [walkItem] at h
      split at h
      · cases h
        rfl
      · obtain ⟨_, -, h⟩ := bind_eq_ok.mp h
        cases h
        rfl
  | act e =>
      have hrecord : (w.record e).curSigma = w.curSigma := by
        unfold Walk.record
        split <;> rfl
      obtain ⟨sigma, rfl, hsigma⟩ := walkItem_act_ok h
      show sigma.map mapId = w.curSigma.map mapId
      rw [← hrecord]
      obtain ⟨-, rfl⟩ | ⟨-, hsigma⟩ := hsigma
      · rfl
      · cases hregion : e.action.writeRegion with
        | none =>
            rw [event_none hregion] at hsigma
            cases hsigma
            rfl
        | some r =>
            have hr : ¬r = .map (some mapId) := fun hr => hitem e rfl (hr ▸ hregion)
            have hsame : w.curSigma.SameOn (· = .map (some mapId)) sigma := by
              rw [← hrecord]
              exact event_leftOut hregion hr hsigma
            exact hrecord ▸ (hsame.map mapId rfl).symm

theorem map_walkItems {items : List Item} (h : items.foldlM (F.walkItem b) w = .ok w')
    (hitems : ∀ e, .act e ∈ items → e.action.writeRegion ≠ some (.map (some mapId))) :
    w'.curSigma.map mapId = w.curSigma.map mapId := by
  refine foldlM_ok (fun _ x => x.curSigma.map mapId = w.curSigma.map mapId) rfl ?_ h
  intro _ item x x' hx hitem hstep
  rw [map_walkItem hstep fun e he => hitems e (he ▸ hitem), hx]

/-- A block is entered with the arrays of the block that the model comes from. -/
theorem map_enterBlock (hlinked : WellLinked F.blocks) (h : Front F w m done (some a))
    (hb : b < F.blocks.length) (hnew : b ∉ done) (hlead : F.leads w m a = some b) :
    byteMaps m (F.enterBlock w b).curSigma mapId = byteMaps m (F.stateAt w a) mapId := by
  obtain ⟨info, g, hinfo, pre, post, hsplit, htrue, hpre, hpost⟩ :=
    (h.contribs hlinked hb hnew).1 a rfl hlead
  have hzero : b ≠ 0 := by
    rintro rfl
    exact hnew (h.entry.mpr rfl)
  have hmerged : (F.enterBlock w b).curSigma = mergeSigma F.identity F.initSt (F.contribs w b) := by
    unfold enterBlock
    rw [if_neg hzero]
  have hstate : F.stateAt w a = info.sigma := by simp [stateAt, hinfo]
  rw [hmerged, hsplit, hstate]
  obtain ⟨hpresent, hvalue⟩ := eval_mergeSigma_map m F.identity F.initSt htrue hpre hpost mapId
  unfold byteMaps MapArrays.byteMap
  rw [hpresent, hvalue]

/-- A block that a model comes to, and that does not write to a map, leaves its arrays. -/
theorem Walked.map_follows (h : F.Walked w kept order) (hab : F.Follows w m a b)
    (hnone : ∀ e ∈ F.actionsOf b, e.action.writeRegion ≠ some (.map (some mapId))) :
    byteMaps m (F.stateAt w b) mapId = byteMaps m (F.stateAt w a) mapId := by
  have haorder : a ∈ order := (h.walks.mem a).mpr (h.visited hab.1)
  have hborder : b ∈ order := (h.walks.mem b).mpr (h.visited hab.2.2)
  obtain ⟨ha, hlead, -⟩ := hab
  have hkept : ∀ c ∈ kept, c < F.blocks.length := fun c hc =>
    (mem_forwardReachable.mp (h.keeps.live c hc)).2
  have hlt : b < F.blocks.length := hkept b ((h.walks.mem b).mp hborder)
  have hblock : F.blocks[b]? = some F.blocks[b] := List.getElem?_eq_getElem hlt
  obtain ⟨done, rest, hsplit⟩ := List.append_of_mem hborder
  obtain ⟨w₀, w₁, final, info, hdone, hvisit, hinfo, hbefore⟩ :=
    visit_of_walk h.run h.walks.nodup hsplit hblock
  obtain ⟨last₀, hfront₀⟩ := front_walk h.linked hkept h.walks m hsplit hdone
  have hnodup := h.walks.nodup
  rw [hsplit] at hnodup
  have hnew : b ∉ done := fun hin => (List.nodup_cons.mp (List.nodup_middle.mp hnodup)).1
    (List.mem_append_left _ hin)
  have hadone : a ∈ done := h.walks.preds h.linked h.keeps hsplit
    ((mem_predsOf h.linked hlt).mpr (mem_succsOf_of_leads hlead)) ((h.walks.mem a).mp haorder)
  have hsame := hbefore a hadone
  have hlead₀ : F.leads w₀ m a = some b := by
    rw [← hlead]
    unfold leads
    rw [hsame]
  have hlast : last₀ = some a := by
    refine hfront₀.last_of_leads hnew ?_ hlead₀
    unfold Walk.Reached
    rw [← hsame]
    exact ha
  subst hlast
  have hentry : byteMaps m (F.enterBlock w₀ b).curSigma mapId = byteMaps m (F.stateAt w₀ a) mapId :=
    map_enterBlock h.linked hfront₀ hlt hnew hlead₀
  have hitems : final.curSigma.map mapId = (F.enterBlock w₀ b).curSigma.map mapId := by
    refine map_walkItems hvisit.items fun e he => ?_
    refine hnone e ?_
    unfold actionsOf
    rw [hblock]
    obtain ⟨_, -, he⟩ | ⟨e', he', he⟩ := mem_items he
    · cases he
    · cases he
      exact he'
  have hend : F.stateAt w b = final.curSigma := by
    rw [← hvisit.sigma]
    simp [stateAt, hinfo]
  have hstart : F.stateAt w a = F.stateAt w₀ a := by
    unfold stateAt
    rw [hsame]
  rw [hend, hstart, ← hentry]
  unfold byteMaps
  rw [hitems]

end Arrays

section Updates

variable (F : ForwardContext maps)

/-- A write to a map that the program records, and a block where something is asked after it:
the model goes from the write to there, and executes no other write to the map behind it. -/
structure LastBefore (w : Walk maps) (m : ZModel) (mapId : Nat) (e : Event) (b : Nat) : Prop where
  recorded : e ∈ F.blocks.flatMap (·.actions)
  writes : e.action.writeRegion = some (.map (some mapId))
  reached : w.Reached m e.block
  path : Relation.ReflTransGen (F.Follows w m) e.block b
  last : ∀ e' ∈ F.blocks.flatMap (·.actions), e'.action.writeRegion = some (.map (some mapId)) →
    Relation.ReflTransGen (F.Follows w m) e.block e'.block →
    Relation.ReflTransGen (F.Follows w m) e'.block b → e' = e ∨ (e'.block = e.block ∧ e'.idx < e.idx)

/-- The walk when it comes to an event. -/
structure Arrives (order : List Nat) (e : Event) (w₁ : Walk maps) : Prop where
  comes : ∃ done rest w₀ block pre post, order = done ++ e.block :: rest ∧
    done.foldlM F.walkBlock { curSigma := F.initSt } = .ok w₀ ∧ F.blocks[e.block]? = some block ∧
    block.items = pre ++ .act e :: post ∧
    pre.foldlM (F.walkItem e.block) (F.enterBlock w₀ e.block) = .ok w₁

variable {F} {w w₁ : Walk maps} {kept order : List Nat} {mapId b : Nat} {e : Event}

theorem placed_actionsOf (h : Listed F.blocks) {c : Nat} (he : e ∈ F.actionsOf c) : e.block = c := by
  unfold actionsOf at he
  cases hblock : F.blocks[c]? with
  | none =>
      rw [hblock] at he
      cases he
  | some block =>
      rw [hblock] at he
      exact h.placed c block hblock e he

theorem mem_events_of_actionsOf {c : Nat} (h : e ∈ F.actionsOf c) :
    e ∈ F.blocks.flatMap (·.actions) := by
  unfold actionsOf at h
  cases hblock : F.blocks[c]? with
  | none =>
      rw [hblock] at h
      cases h
  | some block =>
      rw [hblock] at h
      exact List.mem_flatMap.mpr ⟨block, List.mem_of_getElem? hblock, h⟩

theorem item_le_iff {x y : Item} :
    x.le y = true ↔ x.idx < y.idx ∨ (x.idx = y.idx ∧ x.rank ≤ y.rank) := by
  simp [Item.le]

/-- The items of a block are ordered by their instructions. -/
theorem pairwise_items (block : Block) : block.items.Pairwise fun x y => x.idx ≤ y.idx := by
  have htotal : Std.Total fun x y : Item => x.le y = true := by
    constructor
    intro x y
    rw [item_le_iff, item_le_iff]
    omega
  have htrans : IsTrans Item fun x y => x.le y = true := by
    constructor
    intro x y z hxy hyz
    rw [item_le_iff] at hxy hyz ⊢
    omega
  refine (List.pairwise_insertionSort _ _).imp fun hxy => ?_
  rcases item_le_iff.mp hxy with h | h
  · exact Int.le_of_lt h
  · exact Int.le_of_eq h.1

/-- The actions behind an action of a block belong to later instructions. -/
theorem later_actions {block : Block}
    (hsteps : block.actions.Pairwise fun (e e' : Event) => e.idx < e'.idx) {pre post : List Item}
    (hsplit : block.items = pre ++ .act e :: post) {e' : Event} (he' : .act e' ∈ post) :
    e.idx < e'.idx := by
  have hidx : (block.actions.map (·.idx)).Nodup := by
    refine List.Pairwise.map _ (fun _ _ h => ?_) hsteps
    exact Int.ne_of_lt h
  have hacts : (block.items.filter fun i => decide (i.rank = 1)).Nodup := by
    have hperm := (List.perm_insertionSort (fun x y : Item => x.le y) ((block.sources.filter
      (!isJoinValue ·)).map Item.src ++ block.actions.map Item.act)).filter
        fun i => decide (i.rank = 1)
    refine hperm.nodup_iff.mpr ?_
    rw [List.filter_append, List.filter_eq_nil_iff.mpr, List.nil_append]
    · exact ((List.Nodup.of_map _ hidx).map fun _ _ => Item.act.inj).filter _
    · intro i hi
      obtain ⟨s, -, rfl⟩ := List.mem_map.mp hi
      simp [Item.rank]
  have hmem : ∀ x, Item.act x ∈ block.items → x ∈ block.actions := by
    intro x hx
    obtain ⟨_, -, hx⟩ | ⟨y, hy, hx⟩ := mem_items hx
    · cases hx
    · cases hx
      exact hy
  have hother : e' ≠ e := by
    rintro rfl
    rw [hsplit, List.filter_append, List.filter_cons_of_pos rfl] at hacts
    have hnot := (List.nodup_cons.mp (List.nodup_append.mp hacts).2.1).1
    exact hnot (List.mem_filter.mpr ⟨he', rfl⟩)
  have hne : e.idx ≠ e'.idx := by
    intro hsame
    refine hother (List.inj_on_of_nodup_map hidx (hmem e' ?_) (hmem e ?_) hsame.symm)
    · rw [hsplit]
      simp [he']
    · rw [hsplit]
      simp
  have hsorted := pairwise_items block
  rw [hsplit] at hsorted
  have hle : e.idx ≤ e'.idx :=
    (List.pairwise_cons.mp (List.pairwise_append.mp hsorted).2.1).1 _ he'
  omega

/-- A model does not come back to a block. -/
theorem Walked.ne_of_trans (h : F.Walked w kept order) {a c : Nat}
    (hac : Relation.TransGen (F.Follows w m) a c) : a ≠ c := by
  rintro rfl
  exact lt_irrefl _ (h.idxOf_lt (hac.lift id fun _ _ hstep => h.liveEdge hstep))

theorem record_of_writes {r : StateRegion} (h : e.action.writeRegion = some r) : w.record e = w := by
  unfold Walk.record
  split
  · rename_i haction
    rw [haction] at h
    cases h
  · rfl

/-- The walk performs a write that it does not leave out in the state in which it comes to it;
if that was the last write to the map, its arrays are still those afterwards. -/
theorem Walked.map_after (h : F.Walked w kept order) (hlast : F.LastBefore w m mapId e b)
    (harrives : F.Arrives order e w₁) (hkeep : F.leaves (some (.map (some mapId))) = false) :
    ∃ st, e.toZ3 (F.hooked w₁) (some e.block) w₁.curSigma = .ok st ∧
      byteMaps m (F.stateAt w b) mapId = byteMaps m st mapId := by
  obtain ⟨done, rest, w₀, block, pre, post, hsplit, hdone, hblock, hitems, hpre⟩ := harrives
  obtain ⟨w₀', w₂, final, info, hdone', hvisit, hinfo, -⟩ :=
    visit_of_walk h.run h.walks.nodup hsplit hblock
  obtain rfl := Except.ok.inj (hdone.symm.trans hdone')
  have hrun := hvisit.items
  rw [hitems, List.foldlM_append] at hrun
  obtain ⟨w₁', hpre', hrun⟩ := bind_eq_ok.mp hrun
  obtain rfl := Except.ok.inj (hpre.symm.trans hpre')
  rw [List.foldlM_cons] at hrun
  obtain ⟨w₃, hact, hpost⟩ := bind_eq_ok.mp hrun
  obtain ⟨st, rfl, ⟨hleaves, -⟩ | ⟨-, hst⟩⟩ := walkItem_act_ok hact
  · rw [hlast.writes, hkeep] at hleaves
    cases hleaves
  rw [record_of_writes hlast.writes] at hst hpost
  refine ⟨st, hst, ?_⟩
  have hmem : block ∈ F.blocks := List.mem_of_getElem? hblock
  -- the actions behind the write in its block
  have hend : byteMaps m (F.stateAt w e.block) mapId = byteMaps m st mapId := by
    have hmaps : final.curSigma.map mapId = st.map mapId := by
      refine map_walkItems hpost fun e' he' hwrites => ?_
      obtain ⟨_, -, hx⟩ | ⟨x, hx, hact⟩ := mem_items (hitems ▸ by simp [he'] : .act e' ∈ block.items)
      · cases hx
      · cases hact
        have hblock' : e'.block = e.block := h.listed.placed _ block hblock e' hx
        have hlater := later_actions (h.listed.steps block hmem) hitems he'
        rcases hlast.last e' (List.mem_flatMap.mpr ⟨block, hmem, hx⟩) hwrites (hblock' ▸ .refl)
          (hblock' ▸ hlast.path) with rfl | ⟨-, hlt⟩
        · exact lt_irrefl _ hlater
        · exact lt_asymm hlater hlt
    have hstate : F.stateAt w e.block = final.curSigma := by
      rw [← hvisit.sigma]
      simp [stateAt, hinfo]
    rw [hstate]
    unfold byteMaps
    rw [hmaps]
  -- the blocks behind it on the path
  have hpath : ∀ c, Relation.ReflTransGen (F.Follows w m) e.block c →
      Relation.ReflTransGen (F.Follows w m) c b →
        byteMaps m (F.stateAt w c) mapId = byteMaps m st mapId := by
    intro c hc
    induction hc with
    | refl => exact fun _ => hend
    | tail hac hcd ih =>
        intro hdb
        rw [h.map_follows hcd, ih (.head hcd hdb)]
        intro e' he' hwrites
        have hblock' := placed_actionsOf h.listed he'
        have hne := h.ne_of_trans (.tail' hac hcd)
        rcases hlast.last e' (mem_events_of_actionsOf he') hwrites
          (hblock' ▸ hac.tail hcd) (hblock' ▸ hdb) with rfl | ⟨hsame, -⟩
        · exact hne hblock'
        · exact hne (hsame.symm.trans hblock')
  exact hpath b hlast.path .refl

end Updates

end ForwardContext

end Hornet
