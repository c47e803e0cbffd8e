import Hornet.Verify.Checker
import Hornet.Verify.SlicedMemory

/-!
Two walks along one order. Both keep the regions that some conditions need; what else they
keep, and what they fold of the rest, is up to them. They find the same guards, and every
condition that needs those regions only is decided by the same queries.
-/

namespace Hornet

open Smt Lib

variable {maps : List MapInfo}

namespace ForwardContext

/-- The same context, keeping and folding other regions. -/
def keeping (F : ForwardContext maps) (relevant fold : StateRegion → Bool) : ForwardContext maps :=
  { F with relevant := relevant, fold := fold }

/-- What the program reads and writes along the order stays within known reads and kept
regions. -/
structure Covered (blocks : List Block) (order : List Nat) (N : List Expr)
    (rel : StateRegion → Prop) : Prop where
  reads : ∀ e ∈ N, e.isRead = true
  actions : ∀ b ∈ order, ∀ block, blocks[b]? = some block → ∀ e ∈ block.actions, ∀ r,
    e.action.writeRegion = some r → rel r →
      e.action.Retained N rel ∧ OptRetained N rel e.action.old
  branches : ∀ b ∈ order, ∀ block, blocks[b]? = some block → ∀ c, block.cond = some c →
    Retained N rel (branchCondReads c) (branchCondRegions c)
  returns : ∀ b ∈ order, ∀ block, blocks[b]? = some block → block.kind = .exit →
    OptRetained N rel block.retExpr
  sources : ∀ b ∈ order, ∀ block, blocks[b]? = some block → ∀ s ∈ block.sources,
    s.isRead = true → ∀ e ∈ N, Expr.same s e = true →
      ExprRetained N rel e → ExprRetained N rel s
  numbered : ∀ (b : Nat) (block : Block), blocks[b]? = some block →
    block.num = b ∧ ∀ e ∈ block.actions, e.block = b
  keyed : ∀ e ∈ blocks.flatMap (·.actions), e.action.writeRegion ≠ some (.bss none)
  keyedReads : ¬rel (.bss none)

/-- Both contexts keep the regions `rel`, and fold the same of them. -/
structure KeepsAlike (F : ForwardContext maps) (relevant fold : StateRegion → Bool)
    (rel : StateRegion → Prop) : Prop where
  left : ∀ r, rel r → F.relevant r = true
  right : ∀ r, rel r → relevant r = true
  fold : ∀ r, rel r → F.fold r = fold r

end ForwardContext

structure ForwardInfo.SameOn (rel : StateRegion → Prop) (i i' : ForwardInfo maps) : Prop where
  reach : i.reach = i'.reach
  edgeTaken : i.edgeTaken = i'.edgeTaken
  edgeFall : i.edgeFall = i'.edgeFall
  imprecise : i.imprecise = i'.imprecise
  sigma : i.sigma.SameOn rel i'.sigma

open ForwardContext in
/-- Walks at one place that agree on the kept regions. Reads of other regions may be bound
in one of them only. -/
structure Walk.SameOn (N : List Expr) (rel : StateRegion → Prop) (order : List Nat)
    (w v : Walk maps) : Prop where
  info : ∀ b, Option.Rel (ForwardInfo.SameOn rel) (w.info b) (v.info b)
  bound : ∀ e, e.isRead = true → (∀ r, e.leafRegion = some r → rel r) →
    (memoGet w.memo e).isSome = (memoGet v.memo e).isSome
  memo : ∀ e ∈ N, ExprRetained N rel e → memoGet w.memo e = memoGet v.memo e
  lookupSigma : ∀ k, Option.Rel (Z3State.SameOn rel) (w.lookupSigma k) (v.lookupSigma k)
  curBlock : w.curBlock = v.curBlock
  curReach : w.curReach = v.curReach
  curSigma : w.curSigma.SameOn rel v.curSigma
  visited : ∀ b, (w.info b).isSome = true → b ∈ order
  current : ∀ b, w.curBlock = some b → b ∈ order

namespace ForwardContext

variable {F : ForwardContext maps} {relevant fold : StateRegion → Bool}
variable {N : List Expr} {rel : StateRegion → Prop} {order : List Nat} {w v w' v' : Walk maps}

/-! ## The hooks -/

theorem reachAt_same (h : w.SameOn N rel order v) : w.reachAt = v.reachAt := by
  funext b
  have hinfo : (w.info b).map (·.reach) = (v.info b).map (·.reach) :=
    map_eq_of_rel (fun _ _ hi => hi.reach) (h.info b)
  simp only [Walk.reachAt, h.curBlock, h.curReach, hinfo]

theorem mem_order_of_reachAt (h : w.SameOn N rel order v) {b : Nat} (hreach : w.reachAt b ≠ .ff) :
    b ∈ order := by
  unfold Walk.reachAt at hreach
  split at hreach
  · rename_i hcur
    exact h.current b hcur
  · refine h.visited b ?_
    cases hinfo : w.info b with
    | none => exact absurd (by rw [hinfo]; rfl) hreach
    | some i => rfl

theorem edgeGuard_same (h : w.SameOn N rel order v) : edgeGuard w.info = edgeGuard v.info := by
  funext e
  have hinfo := h.info e.1
  unfold edgeGuard
  revert hinfo
  generalize w.info e.1 = i
  generalize v.info e.1 = i'
  rintro (hi | _)
  · simp only [hi.reach, hi.edgeTaken, hi.edgeFall]
  · rfl

theorem sigmaAt_same (h : w.SameOn N rel order v) (atBlock : Option Nat) :
    (F.sigmaAt w atBlock).SameOn rel ((F.keeping relevant fold).sigmaAt v atBlock) := by
  unfold sigmaAt
  rw [h.curBlock]
  split
  · exact h.curSigma
  · cases atBlock with
    | none => exact .refl rel _
    | some b =>
        rw [Option.bind_some, Option.bind_some]
        have hinfo := h.info b
        revert hinfo
        generalize w.info b = i
        generalize v.info b = i'
        rintro (hi | _)
        · exact hi.sigma
        · exact .refl rel _

theorem mem_keeping (h : w.SameOn N rel order v) (lower lower' : Expr → Except LowerError ZBv) :
    (F.keeping relevant fold).mem v lower' = (F.mem w lower).relower lower' := by
  simp only [mem, Memory.relower, keeping, reachAt_same h]

/-- A write that may have run is one of a block of the order, so its operands are kept. -/
theorem lowersAlike (hcov : Covered F.blocks order N rel) (h : w.SameOn N rel order v)
    {lower lower' : Expr → Except LowerError ZBv}
    (hlower : ∀ e, ExprRetained N rel e → lower e = lower' e) :
    (F.mem w lower).LowersAlike lower' rel where
  operands e he hreach r hr hrel x hx := by
    obtain ⟨block, hblock, hmem⟩ := List.mem_flatMap.mp he
    obtain ⟨b, hb⟩ := List.mem_iff_getElem?.mp hblock
    have hnum := (hcov.numbered b block hb).2 e hmem
    have horder : b ∈ order := hnum ▸ mem_order_of_reachAt h hreach
    obtain ⟨hkept, hold⟩ := hcov.actions b horder block hb e hmem r hr hrel
    refine hlower x ?_
    simp only [List.mem_cons, List.not_mem_nil, or_false] at hx
    rcases hx with hx | hx | hx
    · exact optRetained_iff.mp hkept.value x hx.symm
    · exact optRetained_iff.mp hkept.mapKey x hx.symm
    · exact optRetained_iff.mp hold x hx.symm
  keyed := hcov.keyed

theorem readsWith_same (hkeep : KeepsAlike F relevant fold rel) (hcov : Covered F.blocks order N rel)
    (h : w.SameOn N rel order v) {lower lower' : Expr → Except LowerError ZBv}
    (hlower : ∀ e, ExprRetained N rel e → lower e = lower' e) :
    (F.readsWith w lower).SameOn N rel ((F.keeping relevant fold).readsWith v lower') := by
  have halike := lowersAlike hcov h hlower
  have hnone : ∀ x, (none : Option Expr) = some x → lower x = lower' x := by simp
  refine ⟨?_, ?_, ?_, ?_, edgeGuard_same h, .refl rel _⟩
  · intro e he hkept
    cases e with
    | pktVal block idx off varOff size =>
        obtain ⟨-, hrel, -⟩ := retained_cons.mp hkept
        have hread := halike.read F.fuel ⟨.PKT, off, size, none, none, none⟩ hrel
          (by simp [Loc.stateRegion]) hnone block idx
        simp only [readsWith, mem_keeping h lower lower', h.memo _ he hkept, hread]
        simp only [keeping, hkeep.fold _ hrel]
        rfl
    | _ => rfl
  · intro e he hkept
    cases e with
    | mapVal block idx mapId mapKey mapKeyId off varOff size =>
        obtain ⟨-, hrel, hrest⟩ := retained_cons.mp hkept
        have hkey := (retained_append.mp hrest).1
        have hread := halike.read F.fuel ⟨.MAP, off, size, mapId, mapKey, none⟩ hrel
          (by simp [Loc.stateRegion]) (fun x hx => hlower x (optRetained_iff.mp hkey x hx)) block idx
        simp only [readsWith, mem_keeping h lower lower', h.memo _ he hkept, hread]
        simp only [keeping, hkeep.fold _ hrel]
        rfl
    | _ => rfl
  · intro e he hkept
    cases e with
    | bssVal block idx key off varOff size =>
        obtain ⟨-, hrel, -⟩ := retained_cons.mp hkept
        have hkeyed : StateRegion.bss key ≠ .bss none := fun heq => hcov.keyedReads (heq ▸ hrel)
        have hread := halike.read F.fuel ⟨.BSS, off, size, none, none, key⟩ hrel hkeyed
          hnone block idx
        simp only [readsWith, mem_keeping h lower lower', h.memo _ he hkept, hread]
        simp only [keeping, hkeep.fold _ hrel]
        rfl
    | _ => rfl
  · intro mapId hrel key atBlock atIdx
    have hpresent := Memory.presentFuel_alike halike F.fuel hrel
    have hstate : ∀ {o o' : Option (Z3State maps)}, Option.Rel (Z3State.SameOn rel) o o' →
        (o.getD (F.sigmaAt w atBlock)).map mapId =
          (o'.getD ((F.keeping relevant fold).sigmaAt v atBlock)).map mapId := by
      rintro _ _ (hs | _)
      · exact hs.map mapId hrel
      · exact (sigmaAt_same h atBlock).map mapId hrel
    have hrecorded : Option.Rel (Z3State.SameOn rel)
        (if (atIdx.bind F.lookupBlock).isSome then atIdx.bind w.lookupSigma else none)
        (if (atIdx.bind F.lookupBlock).isSome then atIdx.bind v.lookupSigma else none) := by
      split
      · cases atIdx with
        | none => exact .none
        | some i => exact h.lookupSigma i
      · exact .none
    simp only [readsWith, mem_keeping h lower lower', hpresent, hstate hrecorded]
    simp only [keeping, hkeep.fold _ hrel]
    rfl

/-- The hooks of the walks know the same about the kept regions, however deep the values
that folded regions hold are lowered. -/
theorem reads_same (hkeep : KeepsAlike F relevant fold rel) (hcov : Covered F.blocks order N rel)
    (h : w.SameOn N rel order v) (fuel : Nat) :
    (F.reads w fuel).SameOn N rel ((F.keeping relevant fold).reads v fuel) := by
  induction fuel with
  | zero => exact readsWith_same hkeep hcov h fun _ _ => rfl
  | succ fuel ih =>
      exact readsWith_same hkeep hcov h fun e he => exprToZ3_same ih (.refl rel _) none e he

/-! ## Binding a read -/

theorem leafRegion_of_same {s e : Expr} (hread : e.isRead = true) (h : Expr.same s e = true) :
    s.isRead = true ∧ s.leafRegion = e.leafRegion := by
  cases e <;> cases s <;> simp_all [Expr.same, Expr.isRead, Expr.leafRegion]

theorem memoGet_cons (s e : Expr) (t : ZBv) (memo : List (Expr × ZBv)) :
    memoGet ((s, t) :: memo) e = if Expr.same s e then some t else memoGet memo e := by
  unfold memoGet
  rw [List.find?_cons]
  cases Expr.same s e <;> rfl

/-- What a source does in the walk: it is passed over, or bound to its value. -/
theorem walkItem_src_ok {b : Nat} {s : Expr} (h : F.walkItem b w (.src s) = .ok w') :
    ((memoGet w.memo s).isSome || F.leaves s.leafRegion) = true ∧ w' = w ∨
      ((memoGet w.memo s).isSome || F.leaves s.leafRegion) = false ∧
        ∃ t, exprToZ3 (F.hooked w) (some b) w.curSigma s = .ok t ∧
          w' = { w with memo := (s, t) :: w.memo } := by
  obtain ⟨hskip, h⟩ | ⟨hbind, h⟩ := ite_eq_ok h
  · cases h
    exact .inl ⟨hskip, rfl⟩
  · obtain ⟨t, ht, h⟩ := bind_eq_ok.mp h
    cases h
    exact .inr ⟨by simpa using hbind, t, ht, rfl⟩

/-- A source keeps what is known about the reads that are not equal to it. -/
theorem memoGet_walkItem_src {b : Nat} {s e : Expr} (h : F.walkItem b w (.src s) = .ok w')
    (hne : Expr.same s e = false) : memoGet w'.memo e = memoGet w.memo e := by
  obtain ⟨-, rfl⟩ | ⟨-, t, -, rfl⟩ := walkItem_src_ok h
  · rfl
  · rw [memoGet_cons, hne]
    rfl

theorem leaves_same (hkeep : KeepsAlike F relevant fold rel) {region : Option StateRegion}
    (h : ∀ r, region = some r → rel r) :
    (F.keeping relevant fold).leaves region = F.leaves region := by
  cases region with
  | none => rfl
  | some r =>
      have hr := h r rfl
      simp only [leaves, keeping, hkeep.left r hr, hkeep.right r hr, hkeep.fold r hr]

section Source

variable {b : Nat} {s : Expr}

/-- What the walks know about reads after a source. -/
structure MemoSame (N : List Expr) (rel : StateRegion → Prop) (w v : Walk maps) : Prop where
  bound : ∀ e, e.isRead = true → (∀ r, e.leafRegion = some r → rel r) →
    (memoGet w.memo e).isSome = (memoGet v.memo e).isSome
  memo : ∀ e ∈ N, ExprRetained N rel e → memoGet w.memo e = memoGet v.memo e

/-- A read whose region is kept is bound in both walks or in neither of them. -/
theorem memoSame_kept (hkeep : KeepsAlike F relevant fold rel) (hcov : Covered F.blocks order N rel)
    (h : w.SameOn N rel order v) (hread : s.isRead = true)
    (hrel : ∀ r, s.leafRegion = some r → rel r)
    (hsource : ∀ e ∈ N, Expr.same s e = true → ExprRetained N rel e → ExprRetained N rel s)
    (hw : F.walkItem b w (.src s) = .ok w')
    (hv : (F.keeping relevant fold).walkItem b v (.src s) = .ok v') : MemoSame N rel w' v' := by
  have hleaves := leaves_same hkeep hrel
  have hbound := h.bound s hread hrel
  obtain ⟨hskip, rfl⟩ | ⟨hbind, t, ht, rfl⟩ := walkItem_src_ok hw
  · obtain ⟨-, rfl⟩ | ⟨hbind, -, -, -⟩ := walkItem_src_ok hv
    · exact ⟨h.bound, h.memo⟩
    · rw [hleaves, ← hbound, hskip] at hbind
      cases hbind
  · obtain ⟨hskip, rfl⟩ | ⟨-, t', ht', rfl⟩ := walkItem_src_ok hv
    · rw [hleaves, ← hbound, hbind] at hskip
      cases hskip
    · refine ⟨fun e he hr => ?_, fun e he hkept => ?_⟩
      · rw [memoGet_cons, memoGet_cons]
        split
        · rfl
        · exact h.bound e he hr
      · rw [memoGet_cons, memoGet_cons]
        split
        · rename_i hsame
          have hlowered := exprToZ3_same (reads_same hkeep hcov h F.fuel) h.curSigma (some b) s
            (hsource e he hsame hkept)
          exact congrArg some (Except.ok.inj (ht.symm.trans (hlowered.trans ht')))
        · exact h.memo e he hkept

/-- A read needs the region that it reads from. -/
theorem mem_exprRegions_leafRegion {e : Expr} {r : StateRegion} (he : e.isRead = true)
    (hr : e.leafRegion = some r) : r ∈ exprRegions e := by
  cases e with
  | pktVal | mapVal | bssVal =>
      obtain rfl := Option.some.inj hr
      exact Finset.mem_insert_self _ _
  | _ => cases he

/-- Any other source is not equal to a read whose region is kept. -/
theorem memoSame_other (hcov : Covered F.blocks order N rel) (h : w.SameOn N rel order v)
    (hother : s.isRead = true → ∃ r, s.leafRegion = some r ∧ ¬rel r)
    (hw : F.walkItem b w (.src s) = .ok w')
    (hv : (F.keeping relevant fold).walkItem b v (.src s) = .ok v') : MemoSame N rel w' v' := by
  have hne : ∀ e, e.isRead = true → (∀ r, e.leafRegion = some r → rel r) →
      Expr.same s e = false := by
    intro e he hr
    refine Bool.eq_false_iff.mpr fun hsame => ?_
    obtain ⟨hread, hleaf⟩ := leafRegion_of_same he hsame
    obtain ⟨r, hs, hout⟩ := hother hread
    exact hout (hr r (hleaf ▸ hs))
  refine ⟨fun e he hr => ?_, fun e he hkept => ?_⟩
  · rw [memoGet_walkItem_src hw (hne e he hr), memoGet_walkItem_src hv (hne e he hr)]
    exact h.bound e he hr
  · have hr : ∀ r, e.leafRegion = some r → rel r := by
      intro r hr
      exact hkept.regions r (mem_exprRegions_leafRegion (hcov.reads e he) hr)
    rw [memoGet_walkItem_src hw (hne e (hcov.reads e he) hr),
      memoGet_walkItem_src hv (hne e (hcov.reads e he) hr)]
    exact h.memo e he hkept

end Source

/-! ## The walk -/

theorem memoSame_source {b : Nat} {s : Expr} (hkeep : KeepsAlike F relevant fold rel)
    (hcov : Covered F.blocks order N rel) (h : w.SameOn N rel order v)
    (hsource : s.isRead = true →
      ∀ e ∈ N, Expr.same s e = true → ExprRetained N rel e → ExprRetained N rel s)
    (hw : F.walkItem b w (.src s) = .ok w')
    (hv : (F.keeping relevant fold).walkItem b v (.src s) = .ok v') : MemoSame N rel w' v' := by
  by_cases hkept : s.isRead = true ∧ ∀ r, s.leafRegion = some r → rel r
  · exact memoSame_kept hkeep hcov h hkept.1 hkept.2 (hsource hkept.1) hw hv
  · refine memoSame_other hcov h (fun hread => ?_) hw hv
    by_contra hnone
    exact hkept ⟨hread, fun r hr => by_contra fun hout => hnone ⟨r, hr, hout⟩⟩

theorem record_same (h : w.SameOn N rel order v) (e : Event) :
    (w.record e).SameOn N rel order (v.record e) := by
  unfold Walk.record
  split
  · refine { h with lookupSigma := fun k => ?_ }
    simp only [Function.update_apply]
    split
    · exact .some h.curSigma
    · exact h.lookupSigma k
  · exact h

/-- An action either is performed or leaves the state as it is. -/
theorem walkItem_act_ok {b : Nat} {e : Event} (h : F.walkItem b w (.act e) = .ok w') :
    ∃ sigma, w' = { w.record e with curSigma := sigma } ∧
      (F.leaves e.action.writeRegion = true ∧ sigma = (w.record e).curSigma ∨
        F.leaves e.action.writeRegion = false ∧
          e.toZ3 (F.hooked (w.record e)) (some b) (w.record e).curSigma = .ok sigma) := by
  rw [walkItem_act] at h
  obtain ⟨hleaves, h⟩ | ⟨hperforms, h⟩ := ite_eq_ok h
  · cases h
    exact ⟨_, rfl, .inl ⟨hleaves, rfl⟩⟩
  · obtain ⟨sigma, hsigma, h⟩ := bind_eq_ok.mp h
    cases h
    exact ⟨sigma, rfl, .inr ⟨by simpa using hperforms, hsigma⟩⟩

theorem event_none {R : Option (Reads maps)} {blk : Option Nat} {st : Z3State maps} {e : Event}
    (h : e.action.writeRegion = none) : e.toZ3 R blk st = .ok st := by
  obtain ⟨block, idx, action⟩ := e
  cases action <;> first | rfl | cases h

/-- An action keeps the states in agreement. -/
theorem actSigma_same {b : Nat} {e : Event} {sigma sigma' : Z3State maps}
    (hkeep : KeepsAlike F relevant fold rel) (hcov : Covered F.blocks order N rel)
    (h : w.SameOn N rel order v)
    (hkept : ∀ r, e.action.writeRegion = some r → rel r → e.action.Retained N rel)
    (hw : F.leaves e.action.writeRegion = true ∧ sigma = w.curSigma ∨
      F.leaves e.action.writeRegion = false ∧
        e.toZ3 (F.hooked w) (some b) w.curSigma = .ok sigma)
    (hv : (F.keeping relevant fold).leaves e.action.writeRegion = true ∧ sigma' = v.curSigma ∨
      (F.keeping relevant fold).leaves e.action.writeRegion = false ∧
        e.toZ3 ((F.keeping relevant fold).hooked v) (some b) v.curSigma = .ok sigma') :
    sigma.SameOn rel sigma' := by
  cases hregion : e.action.writeRegion with
  | none =>
      rw [hregion] at hw hv
      obtain ⟨hleaves, -⟩ | ⟨-, hw⟩ := hw
      · cases hleaves
      obtain ⟨hleaves, -⟩ | ⟨-, hv⟩ := hv
      · cases hleaves
      rw [event_none hregion] at hw hv
      exact Except.ok.inj hw ▸ Except.ok.inj hv ▸ h.curSigma
  | some r =>
      by_cases hrel : rel r
      · have hleaves : (F.keeping relevant fold).leaves e.action.writeRegion =
            F.leaves e.action.writeRegion :=
          leaves_same hkeep fun r' hr' => Option.some.inj (hregion.symm.trans hr') ▸ hrel
        obtain ⟨hskip, rfl⟩ | ⟨hdo, hw⟩ := hw
        · obtain ⟨-, rfl⟩ | ⟨hdo, -⟩ := hv
          · exact h.curSigma
          · rw [hleaves, hskip] at hdo
            cases hdo
        · obtain ⟨hskip, -⟩ | ⟨-, hv⟩ := hv
          · rw [hleaves, hdo] at hskip
            cases hskip
          · have hsame := event_same (reads_same hkeep hcov h F.fuel) h.curSigma (some b)
              (hkept r hregion hrel)
            obtain ⟨sigma'', hrun, hsigma⟩ := (hw ▸ hsame).ok_left
            exact Except.ok.inj (hrun.symm.trans hv) ▸ hsigma
      · -- each walk passes the action over or changes a region that is left out
        have hleft : w.curSigma.SameOn rel sigma := by
          obtain ⟨-, rfl⟩ | ⟨-, hw⟩ := hw
          · exact .refl rel _
          · exact event_leftOut hregion hrel hw
        have hright : v.curSigma.SameOn rel sigma' := by
          obtain ⟨-, rfl⟩ | ⟨-, hv⟩ := hv
          · exact .refl rel _
          · exact event_leftOut hregion hrel hv
        exact (hleft.symm.trans h.curSigma).trans hright

theorem walkItem_src_memo {b : Nat} {s : Expr} (h : F.walkItem b w (.src s) = .ok w') :
    ∃ memo, w' = { w with memo := memo } := by
  obtain ⟨-, rfl⟩ | ⟨-, t, -, rfl⟩ := walkItem_src_ok h
  · exact ⟨_, rfl⟩
  · exact ⟨_, rfl⟩

theorem mem_items {block : Block} {item : Item} (h : item ∈ block.items) :
    (∃ s ∈ block.sources, item = .src s) ∨ ∃ e ∈ block.actions, item = .act e := by
  have hmem := (List.perm_insertionSort _ _).mem_iff.mp h
  rcases List.mem_append.mp hmem with hsrc | hact
  · obtain ⟨s, hs, rfl⟩ := List.mem_map.mp hsrc
    exact .inl ⟨s, (List.mem_filter.mp hs).1, rfl⟩
  · obtain ⟨e, he, rfl⟩ := List.mem_map.mp hact
    exact .inr ⟨e, he, rfl⟩

theorem walkItem_same {b : Nat} {block : Block} {item : Item}
    (hkeep : KeepsAlike F relevant fold rel) (hcov : Covered F.blocks order N rel)
    (horder : b ∈ order) (hblock : F.blocks[b]? = some block) (hitem : item ∈ block.items)
    (h : w.SameOn N rel order v) (hw : F.walkItem b w item = .ok w')
    (hv : (F.keeping relevant fold).walkItem b v item = .ok v') : w'.SameOn N rel order v' := by
  obtain ⟨s, hs, rfl⟩ | ⟨e, he, rfl⟩ := mem_items hitem
  · have hmemo := memoSame_source hkeep hcov h (hcov.sources b horder block hblock s hs) hw hv
    obtain ⟨memo, rfl⟩ := walkItem_src_memo hw
    obtain ⟨memo', rfl⟩ := walkItem_src_memo hv
    exact { h with bound := hmemo.bound, memo := hmemo.memo }
  · obtain ⟨sigma, rfl, hsigma⟩ := walkItem_act_ok hw
    obtain ⟨sigma', rfl, hsigma'⟩ := walkItem_act_ok hv
    have hrec := record_same h e
    have hstate := actSigma_same hkeep hcov hrec
      (fun r hr hrel => (hcov.actions b horder block hblock e he r hr hrel).1) hsigma hsigma'
    exact { hrec with curSigma := hstate }

/-! ### The entry of a block -/

theorem mergeSigma_same {cs cs' : List (Guard × Z3State maps)} (I : Identity)
    (initSt : Z3State maps)
    (h : List.Forall₂ (fun c c' => c.1 = c'.1 ∧ c.2.SameOn rel c'.2) cs cs') :
    (mergeSigma I initSt cs).SameOn rel (mergeSigma I initSt cs') := by
  have hmerge : ∀ {s : Srt} (f : Z3State maps → ZTerm s),
      (∀ σ σ' : Z3State maps, σ.SameOn rel σ' → f σ = f σ') →
      cs.map (fun c => (c.1, f c.2)) = cs'.map (fun c => (c.1, f c.2)) := by
    intro s f hf
    exact map_eq_of_forall₂ (fun c c' hc => by rw [hc.1, hf _ _ hc.2]) h
  have hany : ∀ key, rel (.bss (some key)) →
      cs.any (fun c => (c.2.bss key).isSome) = cs'.any (fun c => (c.2.bss key).isSome) := by
    intro key hrel
    have hmap := map_eq_of_forall₂ (f := fun c => (c.2.bss key).isSome)
      (g := fun c => (c.2.bss key).isSome) (fun c c' hc => by rw [hc.2.bss key hrel]) h
    simpa only [List.any_map, Function.id_comp] using congrArg (List.any · id) hmap
  cases h with
  | nil => exact .refl rel _
  | cons hc hrest =>
      cases hrest with
      | nil => exact hc.2
      | cons hd hrest =>
          refine ⟨fun hr => ?_, fun i hr => ?_, fun key hr => ?_, fun hr => ?_, fun hr => ?_,
            rfl, rfl, rfl⟩
          · exact congrArg (mergeComponent I · initSt.pkt) (hmerge (·.pkt) fun _ _ hs => hs.pkt hr)
          · have hpresent := hmerge (fun σ => (σ.map i).present) fun _ _ hs => by rw [hs.map i hr]
            have hvalue := hmerge (fun σ => (σ.map i).value) fun _ _ hs => by rw [hs.map i hr]
            exact congrArg₂ MapArrays.mk
              (congrArg (mergeComponent I · (initSt.map i).present) hpresent)
              (congrArg (mergeComponent I · (initSt.map i).value) hvalue)
          · have harr := hmerge (fun σ => bssOf σ (some key)) fun _ _ hs => hs.bssOf hr
            simp only [mergeSigma, hany key hr, harr]
          · exact congrArg (mergeComponent I · initSt.pktLen)
              (hmerge (·.pktLen) fun _ _ hs => hs.pktLen hr)
          · exact congrArg (mergeComponent I · initSt.rxIndex)
              (hmerge (·.rxIndex) fun _ _ hs => hs.rxIndex hr)

theorem contribs_same (h : w.SameOn N rel order v) (b : Nat) :
    List.Forall₂ (fun c c' => c.1 = c'.1 ∧ c.2.SameOn rel c'.2) (F.contribs w b)
      ((F.keeping relevant fold).contribs v b) := by
  unfold contribs
  have hblocks : (F.keeping relevant fold).blocks = F.blocks := rfl
  rw [hblocks]
  generalize (predsOf F.blocks b).dedup.insertionSort (· ≤ ·) = preds
  induction preds with
  | nil => exact .nil
  | cons p preds ih =>
      rw [List.flatMap_cons, List.flatMap_cons]
      refine List.rel_append ?_ ih
      have hinfo := h.info p
      revert hinfo
      generalize w.info p = i
      generalize v.info p = i'
      cases F.blocks[p]? with
      | none => exact fun _ => .nil
      | some pb =>
          rintro (hi | _)
          · dsimp only
            rw [hi.reach, hi.edgeTaken, hi.edgeFall]
            split
            · exact .nil
            · refine List.forall₂_map_left_iff.mpr (List.forall₂_map_right_iff.mpr ?_)
              exact List.forall₂_same.mpr fun g _ => ⟨rfl, hi.sigma⟩
          · exact .nil

theorem enterBlock_same_on {b : Nat} (horder : b ∈ order) (h : w.SameOn N rel order v) :
    (F.enterBlock w b).SameOn N rel order ((F.keeping relevant fold).enterBlock v b) := by
  have hcontribs : List.Forall₂ (fun c c' => c.1 = c'.1 ∧ c.2.SameOn rel c'.2) (F.contribs w b)
      ((F.keeping relevant fold).contribs v b) := contribs_same h b
  have hguards : (F.contribs w b).map (·.1) = ((F.keeping relevant fold).contribs v b).map (·.1) :=
    map_eq_of_forall₂ (fun _ _ hc => hc.1) hcontribs
  refine { info := h.info, bound := h.bound, memo := h.memo, lookupSigma := h.lookupSigma,
           curBlock := rfl, curReach := ?_, curSigma := ?_, visited := h.visited,
           current := fun b' hb => Option.some.inj hb ▸ horder }
  · simp only [enterBlock]
    split
    · rfl
    · exact congrArg Guard.orAll hguards
  · simp only [enterBlock]
    split
    · exact .refl rel _
    · exact mergeSigma_same _ _ hcontribs

/-! ### The blocks of the order -/

theorem edges_same {b : Nat} {block : Block} (hkeep : KeepsAlike F relevant fold rel)
    (hcov : Covered F.blocks order N rel) (horder : b ∈ order) (hblock : F.blocks[b]? = some block)
    (h : w.SameOn N rel order v) : F.edges w block = (F.keeping relevant fold).edges v block := by
  have hcond : ∀ c, block.cond = some c →
      c.toZ3 (F.hooked w) (some block.num) w.curSigma =
        c.toZ3 ((F.keeping relevant fold).hooked v) (some block.num) v.curSigma :=
    fun c hc => condition_same (reads_same hkeep hcov h F.fuel) h.curSigma _ c
      (hcov.branches b horder block hblock c hc)
  have hpruned : branchGuards (F.hooked w) block w.curSigma F.simplifier =
      branchGuards ((F.keeping relevant fold).hooked v) block v.curSigma F.simplifier := by
    unfold branchGuards
    cases hc : block.cond with
    | none => rfl
    | some c => simp only [hcond c hc]
  have hunpruned : branchGuardsUnpruned (F.hooked w) block w.curSigma =
      branchGuardsUnpruned ((F.keeping relevant fold).hooked v) block v.curSigma := by
    unfold branchGuardsUnpruned
    cases hc : block.cond with
    | none => rfl
    | some c => simp only [hcond c hc]
  simp only [edges, hpruned, hunpruned]
  rfl

theorem walkBlock_same {b : Nat} (hkeep : KeepsAlike F relevant fold rel)
    (hcov : Covered F.blocks order N rel) (horder : b ∈ order) (h : w.SameOn N rel order v)
    (hw : F.walkBlock w b = .ok w') (hv : (F.keeping relevant fold).walkBlock v b = .ok v') :
    w'.SameOn N rel order v' := by
  have hblocks : (F.keeping relevant fold).blocks = F.blocks := rfl
  unfold walkBlock at hw hv
  rw [hblocks] at hv
  cases hblock : F.blocks[b]? with
  | none =>
      rw [hblock] at hw hv
      cases hw
      cases hv
      exact h
  | some block =>
      rw [hblock] at hw hv
      obtain ⟨w₁, hw₁, hw⟩ := bind_eq_ok.mp hw
      obtain ⟨v₁, hv₁, hv⟩ := bind_eq_ok.mp hv
      have hlast : w₁.SameOn N rel order v₁ :=
        foldlM_both (enterBlock_same_on horder h)
          (fun item hitem _ _ _ _ hR hf hg =>
            walkItem_same hkeep hcov horder hblock hitem hR hf hg) hw₁ hv₁
      obtain ⟨⟨taken, fall, imprecise⟩, hedges, hw⟩ := bind_eq_ok.mp hw
      obtain ⟨out, hedges', hv⟩ := bind_eq_ok.mp hv
      rw [← edges_same hkeep hcov horder hblock hlast, hedges] at hedges'
      cases hedges'
      cases hw
      cases hv
      refine { hlast with info := fun b' => ?_, visited := fun b' hb' => ?_ }
      · simp only [Function.update_apply]
        split
        · exact .some ⟨hlast.curReach, rfl, rfl, rfl, hlast.curSigma⟩
        · exact hlast.info b'
      · simp only [Function.update_apply] at hb'
        split at hb'
        · rename_i heq
          exact heq ▸ horder
        · exact hlast.visited b' hb'

theorem walk_same (hkeep : KeepsAlike F relevant fold rel) (hcov : Covered F.blocks order N rel)
    (hw : F.walk order = .ok w) (hv : (F.keeping relevant fold).walk order = .ok v) :
    w.SameOn N rel order v := by
  obtain ⟨w₁, hw₁, hw⟩ := bind_eq_ok.mp hw
  obtain ⟨v₁, hv₁, hv⟩ := bind_eq_ok.mp hv
  cases hw
  cases hv
  have hlast : w₁.SameOn N rel order v₁ :=
    foldlM_both (R := Walk.SameOn N rel order)
      { info := fun _ => .none
        bound := fun _ _ _ => rfl
        memo := fun _ _ _ => rfl
        lookupSigma := fun _ => .none
        curBlock := rfl
        curReach := rfl
        curSigma := .refl rel _
        visited := fun _ h => by cases h
        current := fun _ h => by cases h }
      (fun b hb _ _ _ _ hR hf hg => walkBlock_same hkeep hcov hb hR hf hg) hw₁ hv₁
  exact { hlast with curBlock := rfl, curReach := rfl, curSigma := .refl rel _
                     current := fun _ h => by cases h }

end ForwardContext

end Hornet
