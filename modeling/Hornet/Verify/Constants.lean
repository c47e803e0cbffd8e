import Hornet.Track.Nested
import Hornet.Verify.Forward
import Hornet.Verify.Phi

/-!
The constants that a value can come down to. However deep a constant lies in nested joins,
its term is the constant: it fits the size it declares.
-/

namespace Hornet

open Smt

/-- All constants of a nest of joins fit their sizes. -/
inductive Expr.Fits : Expr → Prop
  | num {n : Int} {size : Nat} (h : numFits n size) (idx : Int) : Fits (.num n size idx)
  | join (blockIdx : Nat) (regNum : Int) {values : List (Option Expr)} (edges : List (List Edge))
      (h : ∀ u, some u ∈ values → Fits u) : Fits (.joinValue blockIdx regNum values edges)
  | other {e : Expr} (hnum : e.num? = none) (hjoin : isJoinValue e = false) : Fits e

/-- What is known of a value that a slot holds: it is built by the tracker, and the constants
of its join, if it has one, fit. -/
structure Expr.Whole (e : Expr) : Prop where
  built : e.Built True
  within : e.Within Expr.Fits

theorem Expr.Whole.fits {e : Expr} (h : e.Whole) : e.Fits := by
  cases e with
  | num n size idx =>
      cases h.built with
      | num hfits => exact .num (hfits trivial) idx
  | joinValue => exact h.within _ rfl
  | _ => exact .other rfl rfl

theorem Expr.Whole.totalOffset {p : PTR Expr} (h : (Expr.ptr p).Whole) : p.totalOffset.Fits := by
  apply Expr.Whole.fits
  constructor
  · exact (built_totalOffset h.built).1
  · exact within_totalOffset h.within fun v hv => (h.built.varOff hv).2

section Merge

variable {self : Block} {predEdges : List Edge} {regNum : Int} {objs : List Obj}

/-- A join of values whose constants fit. -/
theorem fits_joinOf {blockIdx : Nat} {groups : List (Option Expr × List Edge)}
    (h : ∀ g ∈ groups, ∀ u, g.1 = some u → u.Fits) : (joinOf blockIdx regNum groups).Fits := by
  apply Expr.Fits.join
  intro u hu
  obtain ⟨g, hg, hgu⟩ := List.mem_map.mp hu
  exact h g hg u hgu

theorem within_joinOf {blockIdx : Nat} {groups : List (Option Expr × List Edge)}
    (h : ∀ g ∈ groups, ∀ u, g.1 = some u → u.Fits) :
    (joinOf blockIdx regNum groups).Within Expr.Fits := by
  intro j hj
  obtain rfl := Option.some.inj hj
  exact fits_joinOf h

theorem within_withNullity {o : Obj} {p : PTR Expr} (hp : o.val = .ptr p)
    (h : o.val.Within Expr.Fits) (nullity : Option Bool) (copy : Origin) :
    (withNullity o p nullity copy).val.Within Expr.Fits := by
  unfold withNullity
  split
  · exact h
  · have hptr : (Expr.ptr p).Within Expr.Fits := hp ▸ h
    exact hptr.repoint rfl

theorem within_stampNullPhi {o : Obj} (h : o.val.Within Expr.Fits) (predEdges : List Edge)
    (objs : List Obj) (regNum : Int) :
    (self.stampNullPhi o predEdges objs regNum).1.val.Within Expr.Fits := by
  unfold Block.stampNullPhi
  split
  · rename_i p hp
    split
    · exact h
    · dsimp only
      split
      · exact h
      · have hptr : (Expr.ptr p).Within Expr.Fits := hp ▸ h
        exact hptr.repoint rfl
  · exact h

/-- The result of a join, if there is one, has a join whose constants fit. -/
def JoinFits (out : Option Obj × Block) : Prop := ∀ o, out.1 = some o → o.val.Within Expr.Fits

theorem JoinFits.nothing (b : Block) : JoinFits (none, b) := nofun

theorem JoinFits.stamp {b : Block} {o : Obj} (h : o.val.Within Expr.Fits) (predEdges : List Edge)
    (objs : List Obj) (regNum : Int) :
    JoinFits (some (b.stampNullPhi o predEdges objs regNum).1,
      (b.stampNullPhi o predEdges objs regNum).2) := by
  intro o' ho'
  cases ho'
  exact within_stampNullPhi h predEdges objs regNum

section Uniform

variable {first : Obj} {p : PTR Expr} {ptrs : List (PTR Expr)} {nullity : Option Bool}

/-- The offsets of packet pointers are joined as they are counted from the start. -/
theorem joinFits_mergePkt (hp : first.val = .ptr p) (hfirst : first.val.Whole)
    (hptrs : ∀ q ∈ ptrs, (Expr.ptr q).Whole) :
    JoinFits (self.mergePkt predEdges first p objs ptrs nullity regNum) := by
  unfold Block.mergePkt
  split
  · exact .nothing _
  · split
    · dsimp only [Block.newPtrId]
      apply JoinFits.stamp
      apply within_of_varOff
      intro v hv
      obtain rfl := Option.some.inj hv
      apply within_joinOf
      intro g hg u hu
      obtain ⟨x, hx, rfl⟩ := List.mem_map.mp hg
      obtain rfl := Option.some.inj hu
      obtain ⟨e, he⟩ := mem_of_distinct (List.mem_map_of_mem hx)
      exact (hptrs x.1 (List.of_mem_zip he).2).totalOffset
    · exact .stamp (within_withNullity hp hfirst.within nullity _) predEdges objs regNum

theorem joinFits_mergeMapValue (hp : first.val = .ptr p) (hfirst : first.val.Whole) :
    JoinFits (self.mergeMapValue predEdges first p objs ptrs nullity regNum) := by
  unfold Block.mergeMapValue
  split
  · exact .nothing _
  · split
    · exact .stamp (within_withNullity hp hfirst.within nullity _) predEdges objs regNum
    · have hptr : (Expr.ptr p).Within Expr.Fits := hp ▸ hfirst.within
      dsimp only [Block.newPtrId]
      apply JoinFits.stamp
      exact hptr.repoint rfl

theorem joinFits_mergeOther (hp : first.val = .ptr p) (hfirst : first.val.Whole) :
    JoinFits (self.mergeOther predEdges first p objs ptrs nullity regNum) := by
  unfold Block.mergeOther
  split
  · exact .nothing _
  · have hout := within_withNullity hp hfirst.within nullity (.merge self.num regNum)
    dsimp only
    split
    · exact .stamp (within_withView hout none _) predEdges objs regNum
    · exact .stamp hout predEdges objs regNum

theorem joinFits_mergeScalar (hfirst : first.val.Whole) (hobjs : ∀ o ∈ objs, o.val.Whole) :
    JoinFits (self.mergeScalar predEdges first objs regNum) := by
  have hkept : JoinFits (some first, self) := by
    intro o ho
    cases ho
    exact hfirst.within
  have hjoin : JoinFits (Block.mergeScalar.joinScalars self predEdges first objs regNum) := by
    unfold Block.mergeScalar.joinScalars
    split
    · intro o ho
      cases ho
      apply within_joinOf
      intro g hg u hu
      obtain ⟨x, hx, rfl⟩ := List.mem_map.mp hg
      obtain rfl := Option.some.inj hu
      obtain ⟨e, he⟩ := mem_of_distinct (List.mem_map_of_mem hx)
      obtain ⟨o', ho', heq⟩ := List.mem_map.mp (List.of_mem_zip he).2
      exact heq ▸ (hobjs o' ho').fits
    · exact hkept
  unfold Block.mergeScalar
  split
  · split
    · exact hkept
    · exact hjoin
  · exact hjoin

theorem joinFits_mergeUniform (hobjs : ∀ o ∈ objs, o.val.Whole) :
    JoinFits (self.mergeUniform predEdges objs regNum) := by
  unfold Block.mergeUniform
  split
  · exact .nothing _
  · rename_i first rest
    have hfirst := hobjs first (by simp)
    split
    · rename_i p hp
      split
      · exact .nothing _
      · rename_i ptrs hptrs
        split
        · exact .nothing _
        · dsimp only
          split
          · apply joinFits_mergePkt hp hfirst
            intro q hq
            obtain ⟨o, ho, hptr⟩ := Lib.exists_of_mem_mapM hptrs q hq
            exact ptr?_eq_some hptr ▸ hobjs o ho
          · exact joinFits_mergeMapValue hp hfirst
          · exact joinFits_mergeOther hp hfirst
    · split
      · exact .nothing _
      · exact joinFits_mergeScalar hfirst hobjs

theorem within_undecide {b : Block} (org : Origin) (h : (Expr.ptr p).Within Expr.Fits) :
    (b.undecide org p regNum).1.val.Within Expr.Fits := by
  unfold Block.undecide
  split
  · exact h.repoint rfl
  · exact h

theorem joinFits_mergeNulls {merged : Option Obj} {b : Block}
    (h : ∀ o, merged = some o → o.val.Within Expr.Fits) :
    JoinFits (b.mergeNulls predEdges objs regNum merged) := by
  unfold Block.mergeNulls
  split
  · rename_i org p
    exact .stamp (within_undecide org (h _ rfl)) predEdges objs regNum
  · exact .nothing _

end Uniform

theorem within_resolveEntry (depth k : Nat) (c : Option EdgeFact) {v : Option Obj}
    (hv : ∀ o, v = some o → o.val.Within Expr.Fits) {o : Obj}
    (h : self.resolveEntry regNum depth k c v = some o) : o.val.Within Expr.Fits := by
  have hview : ∀ o, self.viewEntry regNum depth k c v = some o → o.val.Within Expr.Fits := by
    intro o ho
    unfold Block.viewEntry at ho
    split at ho
    · obtain ⟨o', ho', rfl⟩ := Option.map_eq_some_iff.mp ho
      exact within_withView (hv o' ho') _ _
    · exact hv o ho
  unfold Block.resolveEntry at h
  split at h
  · rename_i org p hp
    have hptr := hview _ hp
    split at h
    · cases h
      exact hptr
    · split at h
      · cases h
        exact within_withNullity rfl hptr _ _
      · cases h
        exact .plain rfl
      · cases h
        exact hptr
  · exact hview o h

/-- The values that are joined are whole when the entries are. -/
theorem whole_of_resolved {entries : List (Option Obj)} (h : ∀ o, some o ∈ entries → o.val.Whole)
    {depth : Nat} {conds : List (Option EdgeFact)}
    (hobjs : (self.resolveEntries regNum depth conds entries).mapM id = some objs) :
    ∀ o ∈ objs, o.val.Whole := by
  intro o ho
  have hmem : some o ∈ self.resolveEntries regNum depth conds entries := by
    rw [Lib.eq_map_of_mapM_id hobjs]
    exact List.mem_map_of_mem ho
  obtain ⟨⟨v, k⟩, hvk, hres⟩ := List.mem_map.mp hmem
  have hv : v ∈ entries := List.fst_mem_of_mem_zipIdx hvk
  constructor
  · exact built_of_merged (merged_resolveEntry regNum depth k _ hv hres) fun o ho => (h o ho).built
  · apply within_resolveEntry depth k _ _ hres
    rintro o' rfl
    exact (h o' hv).within

theorem joinFits_mergeEntryFuel (fuel : Nat) (self : Block) (predEdges : List Edge)
    {entries : List (Option Obj)} (h : ∀ o, some o ∈ entries → o.val.Whole)
    (conds : List (Option EdgeFact)) :
    JoinFits (Block.mergeEntryFuel fuel self predEdges entries regNum conds) := by
  induction fuel generalizing self predEdges entries conds with
  | zero => exact .nothing _
  | succ fuel ih =>
      unfold Block.mergeEntryFuel
      split
      · exact .nothing _
      · rename_i objs hobjs
        have hwhole := whole_of_resolved h hobjs
        dsimp only
        split
        · split
          · exact .nothing _
          · apply joinFits_mergeNulls
            apply ih
            intro o ho
            obtain ⟨x, hx, hx'⟩ := List.mem_map.mp ho
            cases hx'
            exact hwhole _ (List.of_mem_zip (List.mem_of_mem_filter hx)).2
        · exact joinFits_mergeUniform hwhole

/-- A join of whole values is whole. -/
theorem whole_mergeEntry (predEdges : List Edge) {entries : List (Option Obj)}
    (h : ∀ o, some o ∈ entries → o.val.Whole) (conds : List (Option EdgeFact)) :
    ∀ o, (self.mergeEntry predEdges entries regNum conds).1 = some o → o.val.Whole := by
  intro o ho
  constructor
  · have hmerged := (joined_mergeEntry self predEdges entries regNum conds).merged o ho
    exact built_of_merged hmerged fun o ho => (h o ho).built
  · exact joinFits_mergeEntryFuel _ self predEdges h conds o ho

end Merge

section Enter

variable {blocks : List Block} {self b : Block} {preds : List (Edge × Block)}

/-- Every value of the block is whole. -/
structure Block.Whole (b : Block) : Prop where
  built : b.Built True
  within : b.Within Expr.Fits

theorem Block.Whole.held (h : b.Whole) {o : Obj} (ho : b.Holds o) : o.val.Whole :=
  ⟨h.built.held o ho, h.within.held o ho⟩

theorem whole_mergeRegs (h : ∀ r o, self.regs r = some o → o.val.Whole)
    (hpreds : ∀ x ∈ preds, x.2.Whole) :
    ∀ r o, (self.mergeRegs preds).regs r = some o → o.val.Whole := by
  unfold Block.mergeRegs
  refine List.foldlRecOn _ _ (motive := fun b : Block => ∀ r o, b.regs r = some o → o.val.Whole)
    h ?_
  intro b hb r _ r' o ho
  simp only [Block.setReg, Function.update_apply] at ho
  split at ho
  · apply whole_mergeEntry _ _ _ o ho
    intro o' ho'
    obtain ⟨x, hx, hx'⟩ := List.mem_map.mp ho'
    exact (hpreds x hx).held (.reg r hx')
  · have hslots := (joined_mergeEntry b (preds.map (·.1)) (preds.map (·.2.regs r)) r.val
      (preds.map fun x => Block.edgeFact x.2 x.1.2)).slots
    exact hb r' o (regs_of_slots hslots ▸ ho)

theorem whole_mergeStk (h : ∀ r o, self.regs r = some o → o.val.Whole)
    (hpreds : ∀ x ∈ preds, x.2.Whole) : ∀ o, (self.mergeStk preds).Holds o → o.val.Whole := by
  unfold Block.mergeStk
  refine List.foldlRecOn _ _ (motive := fun b : Block => ∀ o, b.Holds o → o.val.Whole) ?_ ?_
  · intro o ho
    cases ho with
    | reg r hr => exact h r o hr
    | stk hmem => cases hmem
  · intro b hb i _ o ho
    have hslots := (joined_mergeEntry b (preds.map (·.1)) (preds.map fun x => (x.2.stk[i]?).join)
      (-8 * ((i : Int) + 1)) (preds.map fun x => Block.edgeFact x.2 x.1.2)).slots
    cases ho with
    | reg r hr => exact hb o (.reg r (regs_of_slots hslots ▸ hr))
    | stk hmem =>
        rcases List.mem_append.mp hmem with hmem | hmem
        · exact hb o (.stk (stk_of_slots hslots ▸ hmem))
        · apply whole_mergeEntry _ _ _ o (List.mem_singleton.mp hmem).symm
          intro o' ho'
          obtain ⟨x, hx, hx'⟩ := List.mem_map.mp ho'
          exact (hpreds x hx).held (.stk (List.mem_of_getElem? (Option.join_eq_some_iff.mp hx')))

theorem whole_mergePredecessors (hpreds : ∀ pb ∈ self.predBlocks blocks, pb.Whole)
    (h : self.mergePredecessors blocks = .ok b) : ∀ o, b.Holds o → o.val.Whole := by
  unfold Block.mergePredecessors at h
  dsimp only at h
  split at h
  · cases h
  · rename_i first rest hedges
    have hall : ∀ x ∈ self.predEdges blocks, x.2.Whole := fun x hx =>
      hpreds x.2 (mem_predBlocks_of_edge hx)
    split at h
    · cases h
    · cases h
      apply whole_mergeStk _ hall
      apply whole_mergeRegs _ hall
      intro r o ho
      exact (hall first (by rw [hedges]; simp)).held (.reg r ho)

theorem within_initState (hself : self.Whole) {o : Obj} (ho : self.initState.Holds o) :
    o.val.Within Expr.Fits := by
  cases ho with
  | reg r hr =>
      simp only [Block.initState, Function.update_apply] at hr
      split at hr
      · cases hr
        exact .plain rfl
      · split at hr
        · cases hr
          exact .plain rfl
        · exact hself.within.held o (.reg r hr)
  | stk hmem => cases hmem

theorem within_initTailEntry (hpreds : ∀ pb ∈ self.predBlocks blocks, pb.Whole)
    (h : self.initTailEntry blocks = .ok b) : ∀ o, b.Holds o → o.val.Within Expr.Fits := by
  unfold Block.initTailEntry at h
  dsimp only at h
  split at h
  · cases h
  · cases h
    intro o ho
    cases ho with
    | reg r hr =>
        simp only [Function.update_apply] at hr
        split at hr
        · cases hr
          exact .plain rfl
        · split at hr
          · split at hr
            · rename_i x xs hsites
              cases hr
              obtain ⟨pb, hpb, hx⟩ := List.mem_filterMap.mp (hsites ▸ List.mem_cons_self)
              obtain ⟨o, ho, hx⟩ := Option.bind_eq_some_iff.mp hx
              obtain ⟨p, -, rfl⟩ := Option.map_eq_some_iff.mp hx
              exact (hpreds pb (List.mem_of_mem_filter hpb)).within.tailCtx o ho
            · cases hr
              exact .plain rfl
          · cases hr
    | stk hmem => cases hmem

/-- A block that is entered from whole blocks is whole. -/
theorem whole_enter (hself : self.Whole) (hpreds : ∀ pb ∈ self.predBlocks blocks, pb.Whole)
    (h : enter blocks self = .ok b) : b.Whole := by
  have hheld : ∀ o, b.Holds o → o.val.Within Expr.Fits := by
    unfold enter at h
    split at h
    · cases h
      exact fun o ho => within_initState hself ho
    · split at h
      · exact within_initTailEntry hpreds h
      · exact fun o ho => (whole_mergePredecessors hpreds h o ho).within
  constructor
  · exact built_enter hself.built (fun pb hpb => (hpreds pb hpb).built) h
  · refine ⟨hheld, fun o ho => ?_⟩
    exact hself.within.tailCtx o ((held_enter h).2 ▸ ho)

end Enter

section Run

variable {P : Program} {cfg : List Block} {t t' : Tracker} {no : Nat}

theorem Block.Whole.of_slots {b b' : Block} (h : b.Whole) (hslots : b'.slots = b.slots) :
    b'.Whole :=
  ⟨h.built.of_slots hslots, h.within.of_slots hslots⟩

theorem Block.Blank.whole {b : Block} (h : b.Blank) : b.Whole := by
  have hregs : b.regs = fun _ => none := congrArg (·.1) h
  have hstk : b.stk = [] := congrArg (·.2.1) h
  have hctx : b.tailCtx = none := congrArg (·.2.2) h
  refine ⟨h.built, ?_, ?_⟩
  · intro o ho
    cases ho with
    | reg r hr =>
        rw [hregs] at hr
        cases hr
    | stk hmem =>
        rw [hstk] at hmem
        cases hmem
  · intro o ho
    rw [hctx] at ho
    cases ho

theorem whole_trackBlock (hP : ∀ i ∈ P.instrs, i.WellFormed) (hwhole : ∀ b ∈ t.blocks, b.Whole)
    (h : trackBlock P t no = .ok t') : ∀ b ∈ t'.blocks, b.Whole := by
  obtain ⟨b, b', hb, hset, -, entered, hentered, hrun⟩ := blocks_trackBlock h
  rw [hset]
  intro c hc
  rcases List.mem_or_eq_of_mem_set hc with hc | rfl
  · exact hwhole c hc
  · have hentry : entered.Whole := by
      apply whole_enter _ _ hentered
      · exact (hwhole b (List.mem_of_getElem? hb)).of_slots rfl
      · intro pb hpb
        obtain ⟨p, -, hp⟩ := List.mem_filterMap.mp hpb
        exact hwhole pb (List.mem_of_getElem? hp)
    constructor
    · exact built_trackInstrs (fun _ => hP) hentry.built hrun
    · exact within_trackInstrs (fun _ => hP) hentry.within hentry.built hrun

/-- Every value that a tracked block holds is whole. -/
theorem TrackRun.whole (hP : ∀ i ∈ P.instrs, i.WellFormed) {done : List Nat}
    (hblank : ∀ b ∈ cfg, b.Blank) (h : TrackRun P cfg t done) : ∀ b ∈ t.blocks, b.Whole := by
  induction h with
  | first h => exact whole_trackBlock hP (fun b hb => (hblank b hb).whole) h
  | next _ _ _ _ h ih => exact whole_trackBlock hP ih h

end Run

end Hornet
