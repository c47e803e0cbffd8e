import Hornet.Track.AgreeStep
import Hornet.Verify.Reach
import Hornet.Verify.Widths

/-!
The execution of one path. The path enters the blocks that its own branch conditions lead
to, executes their items in its own state, and decides a condition by what it lowers to
there. A join takes the value of the edge by which the path came.
-/

namespace Hornet

open Smt Lib

variable {maps : List MapInfo} {m : ZModel}

/-- The execution of one path: the block that it comes to next, the state it has reached,
what it has bound, the edges it has left by, and the states at the ends of its blocks. -/
structure PathRun (maps : List MapInfo) where
  next : Option Nat := some 0
  sigma : Z3State maps
  memo : List (Expr × ZBv) := []
  lookupSigma : Int → Option (Z3State maps) := fun _ => none
  left : Edge → Bool := fun _ => false
  ends : Nat → Option (Z3State maps) := fun _ => none

/-- The path leaves block `b`, by the taken edge if `taken` and by the other one if not. -/
def PathRun.leave (p : PathRun maps) (b : Nat) (block : Block) (taken : Bool) : PathRun maps :=
  { p with
    next := block.follow taken
    left := fun e =>
      if e.1 = b then !block.branch || (match e.2 with | .taken => taken | .fall => !taken)
      else p.left e
    ends := Function.update p.ends b (some p.sigma) }

/-- The path after the state that a lookup finds was written down. -/
def PathRun.record (p : PathRun maps) (e : Event) : PathRun maps :=
  match e.action with
  | .mapLookup _ _ (some keyId) =>
      { p with lookupSigma := Function.update p.lookupSigma keyId (some p.sigma) }
  | _ => p

namespace ForwardContext

variable (F : ForwardContext maps)

/-- Whether the region is left out of the states. -/
def outside (region : Option StateRegion) : Bool :=
  match region with
  | none => false
  | some r => !F.relevant r

/-- The state of the path in block `b`, where it stands, or at the end of another block. A
block beside the path has the state that the walk has there. -/
def pathSigmaAt (w : Walk maps) (p : PathRun maps) (b : Nat) (atBlock : Option Nat) :
    Z3State maps :=
  match atBlock with
  | none => F.initSt
  | some k => if k = b then p.sigma else (p.ends k).getD (F.stateAt w k)

/-- The hooks of the path in block `b`: a read has the value it was bound to, a lookup asks
the state it was made in, and the guard of an edge says whether the path left by it. The
arms of a join whose guard is known without a solver are chosen before. -/
def pathReads (w : Walk maps) (p : PathRun maps) (b : Nat) : Reads maps where
  readPkt e := pure (match e with
    | .pktVal .. => memoGet p.memo e
    | _ => none)
  readMap e := pure (match e with
    | .mapVal .. => memoGet p.memo e
    | _ => none)
  readBss e := pure (match e with
    | .bssVal .. => memoGet p.memo e
    | _ => none)
  readPresent mapId key atBlock atIdx :=
    let recorded :=
      if (atIdx.bind F.lookupBlock).isSome then atIdx.bind p.lookupSigma else none
    pure (.select ((recorded.getD (F.pathSigmaAt w p b atBlock)).map mapId).present key)
  guardOf e :=
    match edgeGuard w.info e with
    | .term _ => .term (.boolVal (p.left e))
    | known => known
  base := F.initSt

/-- Executes an item of block `b` in the state of the path. -/
def pathItem (w : Walk maps) (b : Nat) (p : PathRun maps) : Item → Except LowerError (PathRun maps)
  | .src e => do
      if (memoGet p.memo e).isSome || F.outside e.leafRegion then pure p
      else
        let t ← exprToZ3 (some (F.pathReads w p b)) (some b) p.sigma e
        pure { p with memo := (e, t) :: p.memo }
  | .act e => do
      let p := p.record e
      if F.outside e.action.writeRegion then pure p
      else
        let sigma ← e.toZ3 (some (F.pathReads w p b)) (some b) p.sigma
        pure { p with sigma := sigma }

/-- Whether the condition at the end of block `b` holds in the state of the path. A condition
that is not known has the value that the model gives it. -/
def pathTaken (m : ZModel) (w : Walk maps) (p : PathRun maps) (b : Nat) (block : Block) :
    Except LowerError Bool :=
  if block.branch then
    match block.cond with
    | none => pure ((Term.var (.branchTaken block.num) .bool).eval m)
    | some cond => do
        let c ← cond.toZ3 (some (F.pathReads w p b)) (some block.num) p.sigma
        pure (c.eval m)
  else pure true

/-- Block `b` in the execution of a path, when the walk comes to it. The path executes the
block if it comes to it too. A block beside the path changes nothing, but a join may name a
read of it, so its reads are bound in the state that the walk has there. -/
def pathBlock (m : ZModel) (w : Walk maps) (p : PathRun maps) (b : Nat) :
    Except LowerError (PathRun maps) := do
  match F.blocks[b]? with
  | none => pure p
  | some block =>
      if p.next = some b then
        let p ← block.items.foldlM (F.pathItem w b) p
        let taken ← F.pathTaken m w p b block
        pure (p.leave b block taken)
      else
        let beside ← block.items.foldlM (F.pathItem w b)
          { p with sigma := (F.enterBlock w b).curSigma }
        pure { p with memo := beside.memo, lookupSigma := beside.lookupSigma }

/-- The walk over a block, and the path beside it. -/
def pathStep (m : ZModel) (s : Walk maps × PathRun maps) (b : Nat) :
    Except LowerError (Walk maps × PathRun maps) := do
  let w ← F.walkBlock s.1 b
  let p ← F.pathBlock m s.1 s.2 b
  pure (w, p)

/-- The execution of the path that a model takes. -/
def pathRun (m : ZModel) (order : List Nat) : Except LowerError (PathRun maps) := do
  let s ← order.foldlM (F.pathStep m) ({ curSigma := F.initSt }, { sigma := F.initSt })
  pure s.2

end ForwardContext

/-- Bindings of the same values to terms that agree. -/
abbrev MemoAgree (m : ZModel) (memo memo' : List (Expr × ZBv)) : Prop :=
  List.Forall₂ (fun x y => x.1 = y.1 ∧ Agree m x.2 y.2) memo memo'

/-- The test of a condition has one width in all states, or one that holds the slot it
compares with. Only the index of a tail call is compared at its own width. -/
def Condition.WidthFree : Condition → Prop
  | .tailCallTaken _ (some e) (some slot) _ => slot < 2 ^ 8 ∨ e.width.isSome
  | _ => True

namespace ForwardContext

variable {F : ForwardContext maps} {w w' : Walk maps} {p p' : PathRun maps} {b : Nat}

/-- What a walk and a path have found out agrees. -/
structure Runs (F : ForwardContext maps) (m : ZModel) (w : Walk maps) (p : PathRun maps) : Prop where
  memo : MemoAgree m w.memo p.memo
  lookupSigma : ∀ k, Option.Rel (Z3State.Agree m) (w.lookupSigma k) (p.lookupSigma k)
  left : ∀ e, p.left e = (edgeGuard w.info e).eval m
  ends : ∀ b sigma, p.ends b = some sigma → (F.stateAt w b).Agree m sigma
  sized : MemoSized w.memo
  sizedPath : MemoSized p.memo

/-- The walk and the path stand in block `b`, in states that agree. -/
structure InBlock (F : ForwardContext maps) (m : ZModel) (b : Nat) (w : Walk maps)
    (p : PathRun maps) : Prop where
  runs : F.Runs m w p
  sigma : ∀ k, (F.sigmaAt w k).Agree m (F.pathSigmaAt w p b k)

theorem isSome_of_rel {α β : Type} {r : α → β → Prop} {o : Option α} {o' : Option β} :
    Option.Rel r o o' → o.isSome = o'.isSome
  | .none => rfl
  | .some _ => rfl

theorem memoGet_agree {memo memo' : List (Expr × ZBv)} (h : MemoAgree m memo memo') (e : Expr) :
    Option.Rel (Hornet.Agree m) (memoGet memo e) (memoGet memo' e) := by
  unfold memoGet
  induction h with
  | nil => exact .none
  | @cons x y _ _ hxy _ ih =>
      obtain ⟨hkey, hterm⟩ := hxy
      rw [List.find?_cons, List.find?_cons, ← hkey]
      split
      · exact .some hterm
      · exact ih

/-- In the block where both stand, and at the ends of the blocks that the path has left. -/
theorem inBlock_of_curSigma (h : F.Runs m w p) (hcur : w.curBlock = some b)
    (hsigma : w.curSigma.Agree m p.sigma) : F.InBlock m b w p := by
  refine ⟨h, fun k => ?_⟩
  unfold sigmaAt pathSigmaAt
  cases k with
  | none => exact .refl _
  | some k =>
      dsimp only
      rw [hcur]
      by_cases hk : k = b
      · subst hk
        simpa using hsigma
      · have hends := h.ends k
        simp only [stateAt] at hends
        simp only [Option.isSome_some, Bool.true_and, Option.some.injEq, hk, decide_false,
          Bool.false_eq_true, if_false, Option.bind_some]
        cases hend : p.ends k with
        | none => exact .refl _
        | some sigma => exact hends sigma hend

theorem InBlock.curSigma (h : F.InBlock m b w p) (hcur : w.curBlock = some b) :
    w.curSigma.Agree m p.sigma := by
  simpa [sigmaAt, pathSigmaAt, hcur] using h.sigma (some b)

/-- Without folding, the hooks of the walk and of the path agree. -/
theorem readsWith_agree (hfold : ∀ r, F.fold r = false) (h : F.InBlock m b w p)
    (hinfo : w.info = w'.info) (lower : Expr → Except LowerError ZBv) :
    (F.readsWith w lower).Agree m (F.pathReads w' p b) where
  readPkt e := by
    unfold readsWith pathReads
    cases e with
    | pktVal =>
        simp only [hfold, Bool.false_eq_true, if_false]
        exact .pure (memoGet_agree h.runs.memo _)
    | _ => exact .pure .none
  readMap e := by
    unfold readsWith pathReads
    cases e with
    | mapVal =>
        simp only [hfold, Bool.false_eq_true, if_false]
        exact .pure (memoGet_agree h.runs.memo _)
    | _ => exact .pure .none
  readBss e := by
    unfold readsWith pathReads
    cases e with
    | bssVal =>
        simp only [hfold, Bool.false_eq_true, if_false]
        exact .pure (memoGet_agree h.runs.memo _)
    | _ => exact .pure .none
  readPresent i k k' blk idx hk := by
    unfold readsWith pathReads
    simp only [hfold, Bool.false_eq_true, if_false]
    refine .pure ?_
    have hplace : (F.sigmaAt w blk).Agree m (F.pathSigmaAt w' p b blk) := by
      have hsigma := h.sigma blk
      unfold pathSigmaAt stateAt at hsigma ⊢
      rw [← hinfo]
      exact hsigma
    have hstate : ∀ {o o' : Option (Z3State maps)}, Option.Rel (Z3State.Agree m) o o' →
        (o.getD (F.sigmaAt w blk)).Agree m (o'.getD (F.pathSigmaAt w' p b blk)) := by
      intro o o' ho
      cases ho with
      | none => exact hplace
      | some hs => exact hs
    have hrecorded : Option.Rel (Z3State.Agree m)
        (if (idx.bind F.lookupBlock).isSome then idx.bind w.lookupSigma else none)
        (if (idx.bind F.lookupBlock).isSome then idx.bind p.lookupSigma else none) := by
      split
      · cases idx with
        | none => exact .none
        | some i => exact h.runs.lookupSigma i
      · exact .none
    simp only [Term.eval_select, (hstate hrecorded).present, hk]
  guardOf e := by
    unfold readsWith pathReads
    dsimp only
    rw [← hinfo, h.runs.left e]
    split
    · rename_i t hterm
      rw [hterm]
      exact ⟨rfl, by simp⟩
    · exact .refl _
  base := rfl

theorem hooked_agree (hfold : ∀ r, F.fold r = false) (h : F.InBlock m b w p)
    (hinfo : w.info = w'.info) : HooksAgree m (F.hooked w) (some (F.pathReads w' p b)) := by
  refine .some ?_
  cases F.fuel with
  | zero => exact readsWith_agree hfold h hinfo _
  | succ n => exact readsWith_agree hfold h hinfo _

/-- The reads that the path has bound have the width of their value. -/
theorem sized_pathReads (hmemo : MemoSized p.memo) : HooksSized (some (F.pathReads w p b)) := by
  intro R hR
  obtain rfl := Option.some.inj hR
  refine ⟨?_, ?_, ?_⟩
  all_goals
    intro e t h
    have h := Except.ok.inj h
    split at h
    · exact size_memoGet hmemo rfl h
    · cases h

/-- The items of a block leave the place of the path as it is. -/
structure SamePath (p p' : PathRun maps) : Prop where
  next : p'.next = p.next
  left : p'.left = p.left
  ends : p'.ends = p.ends

theorem leaves_eq_outside (hfold : ∀ r, F.fold r = false) (region : Option StateRegion) :
    F.leaves region = F.outside region := by
  cases region with
  | none => rfl
  | some r => simp [leaves, outside, hfold]

/-- A lookup is written down by both, or by neither. -/
theorem record_cases (w : Walk maps) (p : PathRun maps) (e : Event) :
    (w.record e = w ∧ p.record e = p) ∨ ∃ k : Int,
      w.record e = { w with lookupSigma := Function.update w.lookupSigma k (some w.curSigma) } ∧
      p.record e = { p with lookupSigma := Function.update p.lookupSigma k (some p.sigma) } := by
  unfold Walk.record PathRun.record
  generalize e.action = a
  cases a with
  | mapLookup mapId mapKey keyId =>
      cases keyId with
      | none => exact .inl ⟨rfl, rfl⟩
      | some k => exact .inr ⟨k, rfl, rfl⟩
  | _ => exact .inl ⟨rfl, rfl⟩

theorem Runs.record (h : F.Runs m w p) (hsigma : w.curSigma.Agree m p.sigma) (e : Event) :
    F.Runs m (w.record e) (p.record e) := by
  rcases record_cases w p e with ⟨hw, hp⟩ | ⟨k, hw, hp⟩
  · rw [hw, hp]
    exact h
  · rw [hw, hp]
    refine { h with lookupSigma := fun i => ?_ }
    simp only [Function.update_apply]
    split
    · exact .some hsigma
    · exact h.lookupSigma i

theorem samePath_record (p : PathRun maps) (e : Event) : SamePath p (p.record e) := by
  unfold PathRun.record
  split <;> exact ⟨rfl, rfl, rfl⟩

/-- What an item keeps beside the walk. -/
structure KeptBeside (F : ForwardContext maps) (m : ZModel) (b : Nat) (w w' : Walk maps)
    (p p' : PathRun maps) : Prop where
  inBlock : F.InBlock m b w' p'
  place : SamePlace w w'
  path : SamePath p p'

/-- An item does the same in the walk and on the path. -/
theorem pathItem_agree {wx : Walk maps} (hfold : ∀ r, F.fold r = false) (h : F.InBlock m b wx p)
    (hinfo : wx.info = w.info) (hcur : wx.curBlock = some b) (item : Item) :
    Related (fun wx' p' => F.KeptBeside m b wx wx' p p') (F.walkItem b wx item) (F.pathItem w b p item) := by
  have hstart := h.curSigma hcur
  cases item with
  | src e =>
      simp only [walkItem, pathItem]
      rw [isSome_of_rel (memoGet_agree h.runs.memo e), leaves_eq_outside hfold]
      split
      · exact .pure ⟨h, ⟨rfl, rfl, rfl⟩, rfl, rfl, rfl⟩
      · have hlower := exprToZ3_agree (hooked_agree hfold h hinfo) hstart (some b) e
        have hsize : ∀ t, exprToZ3 (F.hooked wx) (some b) wx.curSigma e = .ok t →
            e.isRead = true → t.size = 8 * e.size :=
          fun t ht hread => size_read (sized_hooked h.runs.sized) hread ht
        have hsize' : ∀ t, exprToZ3 (some (F.pathReads w p b)) (some b) p.sigma e = .ok t →
            e.isRead = true → t.size = 8 * e.size :=
          fun t ht hread => size_read (sized_pathReads h.runs.sizedPath) hread ht
        revert hlower hsize hsize'
        generalize exprToZ3 (F.hooked wx) (some b) wx.curSigma e = x
        generalize exprToZ3 (some (F.pathReads w p b)) (some b) p.sigma e = x'
        intro hlower hsize hsize'
        cases hlower with
        | error err => exact .error err
        | ok ht =>
            refine .pure ⟨⟨{ h.runs with
              memo := .cons ⟨rfl, ht⟩ h.runs.memo
              sized := ?_
              sizedPath := ?_ }, h.sigma⟩, ⟨rfl, rfl, rfl⟩, rfl, rfl, rfl⟩
            · exact List.forall_mem_cons.mpr ⟨hsize _ rfl, h.runs.sized⟩
            · exact List.forall_mem_cons.mpr ⟨hsize' _ rfl, h.runs.sizedPath⟩
  | act e =>
      have hrec := h.runs.record hstart e
      have hplace := samePlace_record wx e
      have hpath := samePath_record p e
      have hcurSigma : (wx.record e).curSigma = wx.curSigma := by
        unfold Walk.record
        split <;> rfl
      have hsigma : (p.record e).sigma = p.sigma := by
        unfold PathRun.record
        split <;> rfl
      have hrecorded : F.InBlock m b (wx.record e) (p.record e) := by
        apply inBlock_of_curSigma hrec (hplace.curBlock.trans hcur)
        rw [hcurSigma, hsigma]
        exact hstart
      rw [walkItem_act, leaves_eq_outside hfold]
      simp only [pathItem]
      split
      · exact .pure ⟨hrecorded, hplace, hpath⟩
      · have hcur' : (wx.record e).curBlock = some b := hplace.curBlock.trans hcur
        refine Related.bind (event_agree (hooked_agree hfold hrecorded (hplace.info.trans hinfo))
          (hrecorded.curSigma hcur') (some b) e) fun sigma sigma' hsigma => .pure ?_
        refine ⟨inBlock_of_curSigma ?_ hcur' hsigma, ⟨hplace.info, hplace.curBlock, hplace.curReach⟩,
          ⟨hpath.next, hpath.left, hpath.ends⟩⟩
        exact { hrec with }

/-- So do the items of a block. -/
theorem pathItems_agree {wx : Walk maps} (hfold : ∀ r, F.fold r = false)
    (h : F.InBlock m b wx p) (hinfo : wx.info = w.info) (hcur : wx.curBlock = some b)
    (items : List Item) :
    Related (fun wx' p' => F.KeptBeside m b wx wx' p p') (items.foldlM (F.walkItem b) wx)
      (items.foldlM (F.pathItem w b) p) := by
  refine Related.foldlM items (fun wx' p' hkept item _ => ?_) ⟨h, ⟨rfl, rfl, rfl⟩, rfl, rfl, rfl⟩
  have hstep := pathItem_agree hfold hkept.inBlock (hkept.place.info.trans hinfo)
    (hkept.place.curBlock.trans hcur) item
  refine hstep.mono fun wx'' p'' hnext => ⟨hnext.inBlock, ?_, ?_⟩
  · exact ⟨hnext.place.info.trans hkept.place.info, hnext.place.curBlock.trans hkept.place.curBlock,
      hnext.place.curReach.trans hkept.place.curReach⟩
  · exact ⟨hnext.path.next.trans hkept.path.next, hnext.path.left.trans hkept.path.left,
      hnext.path.ends.trans hkept.path.ends⟩

/-- A condition has one truth value in the walk and on the path. -/
theorem pathCondition_agree {wx : Walk maps} (hfold : ∀ r, F.fold r = false)
    (h : F.InBlock m b wx p) (hinfo : wx.info = w.info) (hcur : wx.curBlock = some b)
    {cond : Condition} (hfree : cond.WidthFree) (blk : Option Nat) :
    Related (fun g g' : Guard => g.eval m = g'.eval m) (cond.toZ3 (F.hooked wx) blk wx.curSigma)
      (cond.toZ3 (some (F.pathReads w p b)) blk p.sigma) := by
  apply condition_agree (hooked_agree hfold h hinfo) (h.curSigma hcur)
  rintro mapId e slot idx rfl t t' ht ht'
  have hsized : HooksSized (F.hooked wx) := sized_hooked h.runs.sized
  have hsized' : HooksSized (some (F.pathReads w p b)) := sized_pathReads h.runs.sizedPath
  cases hwidth : e.width with
  | some n => exact .inl ((size_of_width hsized hwidth ht).trans (size_of_width hsized' hwidth ht').symm)
  | none =>
      have hslot : slot < 2 ^ 8 := by
        rcases hfree with hslot | hsome
        · exact hslot
        · rw [hwidth] at hsome
          cases hsome
      refine .inr ⟨?_, ?_⟩
      · exact hslot.trans_le (Nat.pow_le_pow_right (by omega) (le_size_of_width_none hwidth ht))
      · exact hslot.trans_le (Nat.pow_le_pow_right (by omega) (le_size_of_width_none hwidth ht'))

/-- The edge that the walk guards is the one that the path takes. -/
theorem pathTaken_eq {wx : Walk maps} (hfold : ∀ r, F.fold r = false) (h : F.InBlock m b wx p)
    (hinfo : wx.info = w.info) (hcur : wx.curBlock = some b) {block : Block}
    (hfree : ∀ c, block.cond = some c → c.WidthFree) {taken fall : Guard} {imprecise : Bool}
    (hedges : F.edges wx block = .ok (taken, fall, imprecise)) :
    F.pathTaken m w p b block = .ok (taken.eval m) := by
  unfold edges at hedges
  unfold pathTaken
  split at hedges
  · rename_i hbranch
    rw [if_pos hbranch]
    cases hcond : block.cond with
    | none =>
        unfold branchGuards branchGuardsUnpruned at hedges
        simp only [hcond] at hedges
        split at hedges <;> cases hedges <;> rfl
    | some cond =>
        have hvalue := pathCondition_agree hfold h hinfo hcur (hfree cond hcond) (some block.num)
        obtain ⟨c, hc, hguard⟩ : ∃ c, cond.toZ3 (F.hooked wx) (some block.num) wx.curSigma = .ok c ∧
            taken.eval m = c.eval m := by
          unfold branchGuards branchGuardsUnpruned at hedges
          simp only [hcond] at hedges
          split at hedges
          · obtain ⟨c, hc, hedges⟩ := bind_eq_ok.mp hedges
            cases hedges
            exact ⟨c, hc, eval_lit m F.simplifier c⟩
          · obtain ⟨c, hc, hedges⟩ := bind_eq_ok.mp hedges
            cases hedges
            refine ⟨c, hc, ?_⟩
            cases c <;> rfl
        rw [hc] at hvalue
        obtain ⟨c', hc', hsame⟩ := hvalue.ok_left
        dsimp only
        rw [hc', hguard, hsame]
        rfl
  · rename_i hbranch
    rw [if_neg hbranch]
    cases hedges
    rfl

end ForwardContext

end Hornet
