import Hornet.Verify.SlicedWalk

/-!
The checks of two walks that keep the regions the conditions need. They ask the same
queries and come to the same results; in particular it does not matter whether a policy is
checked in a context of its own or in one that it shares with others.
-/

namespace Hornet

open Smt Lib

variable {maps : List MapInfo}

/-! ## The reads in a condition -/

def atomReads : Atom → List Expr
  | .helperScalar retval _ _ => exprReads retval
  | .helperNull mapId mapKey _ _ => if mapId.isSome then optReads mapKey else []
  | .read parts _ _ => listReads (parts.map fun p => some p.1)
  | .pkt .. | .map .. | .bss .. | .len .. | .scalar .. | .ret .. => []

mutual

def condReads : CondNode → List Expr
  | .leaf atom => atomReads atom
  | .not child => condReads child
  | .and children | .or children => condsReads children

def condsReads : List CondNode → List Expr
  | [] => []
  | c :: cs => condReads c ++ condsReads cs

end

/-- States of a condition that agree on the kept regions. -/
structure CondState.SameOn (N : List Expr) (rel : StateRegion → Prop) (st st' : CondState maps) :
    Prop where
  reads : Option.Rel (Reads.SameOn N rel) st.reads st'.reads
  hooked : st.reads.isSome = true
  block : st.block = st'.block
  sigma : st.sigma.SameOn rel st'.sigma
  readLoc : ∀ loc, rel loc.stateRegion → OptRetained N rel loc.mapKey →
    st.readLoc loc = st'.readLoc loc

section Conditions

variable {N : List Expr} {rel : StateRegion → Prop} {st st' : CondState maps}

namespace CondState.SameOn

variable (h : st.SameOn N rel st')

include h

theorem expr {e : Expr} (he : ExprRetained N rel e) :
    exprToZ3 st.reads st.block st.sigma e = exprToZ3 st'.reads st'.block st'.sigma e := by
  obtain ⟨hreads, hooked, hblock, hsigma, -⟩ := h
  rw [hblock]
  revert hreads hooked
  generalize st.reads = R
  generalize st'.reads = R'
  rintro (hR | _) hooked
  · exact exprToZ3_same hR hsigma _ e he
  · cases hooked

theorem condition {c : Condition} (hc : Retained N rel (branchCondReads c) (branchCondRegions c)) :
    c.toZ3 st.reads st.block st.sigma = c.toZ3 st'.reads st'.block st'.sigma := by
  obtain ⟨hreads, hooked, hblock, hsigma, -⟩ := h
  rw [hblock]
  revert hreads hooked
  generalize st.reads = R
  generalize st'.reads = R'
  rintro (hR | _) hooked
  · exact condition_same hR hsigma _ c hc
  · cases hooked

theorem bytesEq (loc : Loc) (hloc : rel loc.stateRegion) (hkey : OptRetained N rel loc.mapKey)
    (size : Nat) (value : Int) : st.bytesEq loc size value = st'.bytesEq loc size value := by
  have hbyte : ∀ i : Nat, st.readLoc { loc with off := loc.off + i, size := 1 } =
      st'.readLoc { loc with off := loc.off + i, size := 1 } := fun i => h.readLoc _ hloc hkey
  simp only [CondState.bytesEq, CondState.readBytes, hbyte]

end CondState.SameOn

theorem retained_parts {parts : List (Expr × Nat)}
    (h : ListRetained N rel (parts.map fun p => some p.1)) :
    ∀ p ∈ parts, ExprRetained N rel p.1 := by
  induction parts with
  | nil => exact nofun
  | cons p parts ih =>
      obtain ⟨hp, hrest⟩ := retained_append.mp h
      exact List.forall_mem_cons.mpr ⟨hp, ih hrest⟩

theorem atom_same (h : st.SameOn N rel st') (a : Atom)
    (ha : Retained N rel (atomReads a) (atomRegions a)) : a.toZ3 st = a.toZ3 st' := by
  cases a with
  | pkt offset data op =>
      have hpkt : rel .pkt := ha.regions .pkt (by simp [atomRegions])
      have hbyte : ∀ i : Nat, st.readLoc ⟨.PKT, offset + i, 1, none, none, none⟩ =
          st'.readLoc ⟨.PKT, offset + i, 1, none, none, none⟩ :=
        fun i => h.readLoc _ hpkt retained_empty
      simp only [Atom.toZ3, hbyte]
  | map mapId key present value keySize valueSize =>
      have hmap : rel (.map (some mapId)) := ha.regions _ (by simp [atomRegions])
      have hhit := h.condition
        (c := .containMapValue (some mapId) (some (.num key keySize (-1))) none true)
        (retained_insert.mpr ⟨hmap, retained_empty⟩)
      simp only [Atom.toZ3, hhit]
      cases value with
      | none => rfl
      | some value =>
          have hbytes := h.bytesEq ⟨.MAP, 0, 1, some mapId, some (.num key keySize (-1)), none⟩
            hmap retained_empty valueSize value
          simp only [hbytes]
  | bss sym offset size value op =>
      have hbss : rel (.bss (some sym)) := ha.regions _ (by simp [atomRegions])
      have hbytes := h.bytesEq ⟨.BSS, offset, 1, none, none, some sym⟩ hbss retained_empty size value
      simp only [Atom.toZ3, hbytes]
  | len min max =>
      have hlen := h.sigma.pktLen (ha.regions .pktLen (by simp [atomRegions]))
      simp only [Atom.toZ3, hlen]
  | scalar target value =>
      cases target with
      | rxIndex =>
          have hrx := h.sigma.rxIndex (ha.regions .rxIndex (by simp [atomRegions, CtxTarget.regions]))
          simp only [Atom.toZ3, hrx]
      | ingress => simp only [Atom.toZ3, h.sigma.ingress]
      | egress => simp only [Atom.toZ3, h.sigma.egress]
  | helperScalar retval op value => simp only [Atom.toZ3, h.expr ha]
  | helperNull mapId mapKey mapKeyId result =>
      have hhit := h.condition (c := .containMapValue mapId mapKey mapKeyId result) ha
      simp only [Atom.toZ3, hhit]
  | ret op value => simp only [Atom.toZ3, h.sigma.r0]
  | read parts op target =>
      have hparts := retained_parts ha
      have hbytes : (parts.mapM fun p => exprToZ3 st.reads st.block st.sigma p.1 >>= fun t =>
            pure (⟨8, .extract (p.2 * 8) 8 t.term⟩ : ZBv)) =
          parts.mapM fun p => exprToZ3 st'.reads st'.block st'.sigma p.1 >>= fun t =>
            pure (⟨8, .extract (p.2 * 8) 8 t.term⟩ : ZBv) :=
        mapM_congr fun p hp => by rw [h.expr (hparts p hp)]
      simp only [Atom.toZ3, hbytes]

mutual

/-- A condition whose regions are kept has one term in both states. -/
theorem cond_same (h : st.SameOn N rel st') :
    (c : CondNode) → Retained N rel (condReads c) (condRegions c) → c.toZ3 st = c.toZ3 st'
  | .leaf atom, hc => by simp only [CondNode.toZ3, atom_same h atom hc]
  | .not child, hc => by simp only [CondNode.toZ3, cond_same h child hc]
  | .and children, hc => by simp only [CondNode.toZ3, conds_same h children hc]
  | .or children, hc => by simp only [CondNode.toZ3, conds_same h children hc]

theorem conds_same (h : st.SameOn N rel st') :
    (cs : List CondNode) → Retained N rel (condsReads cs) (condsRegions cs) →
      CondNode.toZ3List st cs = CondNode.toZ3List st' cs
  | [], _ => rfl
  | c :: cs, hcs => by
      obtain ⟨hc, hrest⟩ := retained_append.mp hcs
      simp only [CondNode.toZ3List, cond_same h c hc, conds_same h cs hrest]

end

end Conditions

namespace ForwardContext

variable {F : ForwardContext maps} {relevant fold : StateRegion → Bool}
variable {N : List Expr} {rel : StateRegion → Prop} {order : List Nat} {w v : Walk maps}

/-! ## The states that conditions are asked of -/

theorem stateAt_same (h : w.SameOn N rel order v) (block : Nat) :
    (F.stateAt w block).SameOn rel ((F.keeping relevant fold).stateAt v block) := by
  have hinfo := h.info block
  unfold stateAt
  revert hinfo
  generalize w.info block = i
  generalize v.info block = i'
  rintro (hi | _)
  · exact hi.sigma
  · exact .refl rel _

theorem readLoc_same (hkeep : KeepsAlike F relevant fold rel) (hcov : Covered F.blocks order N rel)
    (h : w.SameOn N rel order v) (block : Nat) (loc : Loc) (hrel : rel loc.stateRegion)
    (hkey : OptRetained N rel loc.mapKey) :
    F.readLoc w block loc = (F.keeping relevant fold).readLoc v block loc := by
  have hlower : ∀ e, ExprRetained N rel e → exprToZ3 (F.hooked w) none F.initSt e =
      exprToZ3 ((F.keeping relevant fold).hooked v) none F.initSt e :=
    fun e he => exprToZ3_same (reads_same hkeep hcov h F.fuel) (.refl rel _) none e he
  have hkeyed : loc.stateRegion ≠ .bss none := fun heq => hcov.keyedReads (heq ▸ hrel)
  have hfolded := (lowersAlike hcov h hlower).locByte F.fuel hrel hkeyed
    (fun x hx => hlower x (optRetained_iff.mp hkey x hx)) block
  have hmem : (F.keeping relevant fold).mem v
        (exprToZ3 ((F.keeping relevant fold).hooked v) none F.initSt) =
      (F.mem w (exprToZ3 (F.hooked w) none F.initSt)).relower
        (exprToZ3 ((F.keeping relevant fold).hooked v) none F.initSt) := mem_keeping h _ _
  rw [← hmem] at hfolded
  have hsigma : (F.sigmaAt w (some block)).SameOn rel
      ((F.keeping relevant fold).sigmaAt v (some block)) := sigmaAt_same h (some block)
  have hfold := hkeep.fold _ hrel
  obtain ⟨region, off, size, mapId, mapKey, bssKey⟩ := loc
  simp only [readLoc, hfolded]
  cases region with
  | PKT =>
      simp only [Loc.stateRegion] at hfold hrel
      simp only [hfold, hsigma.pkt hrel]
      rfl
  | MAP =>
      simp only [Loc.stateRegion] at hfold hrel
      simp only [hfold]
      cases mapId with
      | none => rfl
      | some mapId =>
          cases mapKey with
          | none => rfl
          | some k =>
              simp only [hlower k hkey, hsigma.map mapId hrel]
              rfl
  | BSS =>
      simp only [Loc.stateRegion] at hfold hrel
      simp only [hfold, hsigma.bssOf hrel]
      rfl
  | CTX => rfl

theorem condState_same (hkeep : KeepsAlike F relevant fold rel)
    (hcov : Covered F.blocks order N rel) (h : w.SameOn N rel order v) (block : Nat) :
    (F.condState w block).SameOn N rel ((F.keeping relevant fold).condState v block) where
  reads := .some (reads_same hkeep hcov h F.fuel)
  hooked := rfl
  block := rfl
  sigma := stateAt_same h block
  readLoc := readLoc_same hkeep hcov h block

/-- The states of an exit have one return value. -/
theorem exitState_same (hkeep : KeepsAlike F relevant fold rel)
    (hcov : Covered F.blocks order N rel) (h : w.SameOn N rel order v) {b : Nat} (horder : b ∈ order)
    (hexit : b ∈ exitBlocks F.blocks) :
    Related (Option.Rel (CondState.SameOn N rel)) (F.exitState w b)
      ((F.keeping relevant fold).exitState v b) := by
  have hblocks : (F.keeping relevant fold).blocks = F.blocks := rfl
  have hcond : (F.condState w b).SameOn N rel ((F.keeping relevant fold).condState v b) :=
    condState_same hkeep hcov h b
  obtain ⟨block, hblock, rfl⟩ := List.mem_map.mp hexit
  obtain ⟨hmem, hkind⟩ := List.mem_filter.mp hblock
  obtain ⟨i, hi⟩ := List.mem_iff_getElem?.mp hmem
  obtain ⟨rfl, -⟩ := hcov.numbered i block hi
  have hret := hcov.returns _ horder block hi (of_decide_eq_true hkind)
  simp only [exitState, retState, hblocks, hi, Option.bind_some]
  cases hexpr : block.retExpr with
  | none => exact .pure .none
  | some ret =>
      have hret : ExprRetained N rel ret := optRetained_iff.mp hret ret hexpr
      have hlower := hcond.expr hret
      simp only [condState] at hlower
      dsimp only
      rw [hlower]
      simp only [bind_assoc]
      refine Related.bind (.refl (fun _ => rfl) _) ?_
      rintro t _ rfl
      refine .pure (.some { hcond with sigma := ?_ })
      exact { hcond.sigma with r0 := rfl }

/-! ## The checks -/

theorem isSome_info_same (h : w.SameOn N rel order v) (b : Nat) :
    (w.info b).isSome = (v.info b).isSome := by
  have hinfo := h.info b
  revert hinfo
  generalize w.info b = i
  generalize v.info b = i'
  rintro (_ | _) <;> rfl

theorem droppedEffects_same (h : w.SameOn N rel order v) (block : Nat) :
    (F.keeping relevant fold).droppedEffects v block = F.droppedEffects w block := by
  simp only [droppedEffects, isSome_info_same h, reachAt_same h]
  rfl

theorem isVacuous_same (h : w.SameOn N rel order v) (answers : Nat → Answer) :
    isVacuous w answers = isVacuous v answers := by
  funext s block
  simp only [isVacuous, reachAt_same h]

theorem checkBlockCondition_same (hkeep : KeepsAlike F relevant fold rel)
    (hcov : Covered F.blocks order N rel) (h : w.SameOn N rel order v) (answers : Nat → Answer)
    {bc : BlockCondition} (hc : Retained N rel (condReads bc.cond) (condRegions bc.cond))
    (s : Session) :
    F.checkBlockCondition w answers bc s =
      (F.keeping relevant fold).checkBlockCondition v answers bc s := by
  have hbody : bc.cond.toZ3 (F.condState w bc.block) =
      bc.cond.toZ3 ((F.keeping relevant fold).condState v bc.block) :=
    cond_same (condState_same hkeep hcov h bc.block) bc.cond hc
  have hinfo := h.info bc.block
  simp only [checkBlockCondition, hbody, reachAt_same h, droppedEffects_same h, isVacuous_same h]
  revert hinfo
  generalize w.info bc.block = i
  generalize v.info bc.block = i'
  rintro (hi | _)
  · simp only [hi.imprecise]
  · rfl

theorem liveExits_same (h : w.SameOn N rel order v) :
    (F.keeping relevant fold).liveExits v = F.liveExits w := by
  simp only [liveExits, isSome_info_same h, reachAt_same h]
  rfl

theorem checkExit_same (hkeep : KeepsAlike F relevant fold rel)
    (hcov : Covered F.blocks order N rel) (h : w.SameOn N rel order v) (answers : Nat → Answer)
    {ec : ExitCondition} (hc : Retained N rel (condReads ec.cond) (condRegions ec.cond))
    (acc : List (Nat × Bool) × Session) {b : Nat} (hb : b ∈ F.liveExits w) :
    F.checkExit w answers ec acc b = (F.keeping relevant fold).checkExit v answers ec acc b := by
  obtain ⟨hexit, hlive⟩ := List.mem_filter.mp hb
  have horder : b ∈ order := h.visited b (Bool.and_eq_true_iff.mp hlive).1
  have hstate : Related (Option.Rel (CondState.SameOn N rel)) (F.exitState w b)
      ((F.keeping relevant fold).exitState v b) := exitState_same hkeep hcov h horder hexit
  simp only [checkExit, reachAt_same h]
  revert hstate
  generalize F.exitState w b = x
  generalize (F.keeping relevant fold).exitState v b = y
  rintro (e | (hst | _))
  · rfl
  · show (ec.cond.toZ3 _ >>= _) = (ec.cond.toZ3 _ >>= _)
    rw [cond_same hst ec.cond hc]
  · rfl

theorem checkExitCondition_same (hkeep : KeepsAlike F relevant fold rel)
    (hcov : Covered F.blocks order N rel) (h : w.SameOn N rel order v) (answers : Nat → Answer)
    {ec : ExitCondition} (hc : Retained N rel (condReads ec.cond) (condRegions ec.cond))
    (s : Session) :
    F.checkExitCondition w answers ec s =
      (F.keeping relevant fold).checkExitCondition v answers ec s := by
  have hfold : (F.liveExits w).foldlM (F.checkExit w answers ec) ([], s) =
      (F.liveExits w).foldlM ((F.keeping relevant fold).checkExit v answers ec) ([], s) :=
    foldlM_congr (fun acc b hb => checkExit_same hkeep hcov h answers hc acc hb) _
  have hnotes : F.droppedEffects w = (F.keeping relevant fold).droppedEffects v :=
    funext fun b => (droppedEffects_same h b).symm
  simp only [checkExitCondition, liveExits_same h, hfold, hnotes]

end ForwardContext

/-! ## What the needed regions cover -/

section Reads

theorem isRead_cons {e : Expr} {es : List Expr} (he : e.isRead = true)
    (hes : ∀ x ∈ es, x.isRead = true) : ∀ x ∈ e :: es, x.isRead = true :=
  List.forall_mem_cons.mpr ⟨he, hes⟩

theorem isRead_append {as bs : List Expr} (ha : ∀ x ∈ as, x.isRead = true)
    (hb : ∀ x ∈ bs, x.isRead = true) : ∀ x ∈ as ++ bs, x.isRead = true :=
  fun x hx => (List.mem_append.mp hx).elim (ha x) (hb x)

theorem isRead_ite {p : Prop} [Decidable p] {es : List Expr} (h : ∀ x ∈ es, x.isRead = true) :
    ∀ x ∈ (if p then es else []), x.isRead = true := by
  split
  · exact h
  · exact nofun

mutual

theorem isRead_exprReads : (e : Expr) → ∀ x ∈ exprReads e, x.isRead = true
  | .pktVal _ _ _ v _ | .bssVal _ _ _ _ v _ => isRead_cons rfl (isRead_optReads v)
  | .mapVal _ _ _ k _ _ v _ => isRead_cons rfl (isRead_append (isRead_optReads k) (isRead_optReads v))
  | .rodataVal _ _ v _ => isRead_optReads v
  | .lookupHit _ k _ => isRead_optReads k
  | .funcRetval ⟨_, _, _, _, _, k, _, _, _⟩ => isRead_ite (isRead_optReads k)
  | .joinValue _ _ vs _ => isRead_listReads vs
  | .unary _ d _ _ _ _ => isRead_optReads d
  | .binary _ d s _ _ _ => isRead_append (isRead_optReads d) (isRead_optReads s)
  | .byteSeq cs _ _ => isRead_listReads cs
  | .pktLen .. | .rxQueueIndex | .scalar .. | .ingressIfindex | .egressIfindex | .num .. | .ptr _ =>
      nofun

theorem isRead_optReads : (o : Option Expr) → ∀ x ∈ optReads o, x.isRead = true
  | none => nofun
  | some e => isRead_exprReads e

theorem isRead_listReads : (es : List (Option Expr)) → ∀ x ∈ listReads es, x.isRead = true
  | [] => nofun
  | e :: es => isRead_append (isRead_optReads e) (isRead_listReads es)

end

theorem isRead_branchCondReads (c : Condition) : ∀ x ∈ branchCondReads c, x.isRead = true := by
  cases c with
  | containMapValue mapId mapKey mapKeyId result => exact isRead_ite (isRead_optReads mapKey)
  | adjustHeadCheck result idx => exact nofun
  | tailCallTaken mapId index slot idx => exact isRead_optReads index
  | cmp code dst src jmp32 => exact isRead_append (isRead_optReads dst) (isRead_optReads src)

theorem isRead_atomReads (a : Atom) : ∀ x ∈ atomReads a, x.isRead = true := by
  cases a with
  | helperScalar retval op value => exact isRead_exprReads retval
  | helperNull mapId mapKey mapKeyId result => exact isRead_ite (isRead_optReads mapKey)
  | read parts op target => exact isRead_listReads _
  | _ => exact nofun

mutual

theorem isRead_condReads : (c : CondNode) → ∀ x ∈ condReads c, x.isRead = true
  | .leaf atom => isRead_atomReads atom
  | .not child => isRead_condReads child
  | .and children | .or children => isRead_condsReads children

theorem isRead_condsReads : (cs : List CondNode) → ∀ x ∈ condsReads cs, x.isRead = true
  | [] => nofun
  | c :: cs => isRead_append (isRead_condReads c) (isRead_condsReads cs)

end

end Reads

/-- The reads that a block records, and those in what it tests, writes and returns. -/
def Block.reads (b : Block) : List Expr :=
  b.sources.flatMap exprReads ++
    b.actions.flatMap (fun e =>
      e.action.operandReads ++ e.action.reread ++ optReads e.action.old) ++
    (b.cond.map branchCondReads).getD [] ++ optReads b.retExpr

section Covers

variable (blocks : List Block) (order : List Nat) (condTrees : List CondNode)

/-- All reads along an order, and in the conditions. -/
def orderReads : List Expr :=
  condsReads condTrees ++ (sliceBlocks blocks order).flatMap Block.reads

/-- What the tracker records about a program: blocks and actions carry their own number, an
addition reads what it writes, a `.bss` access names its symbol, and a recorded read is told
from the others by its place. -/
structure Recorded : Prop where
  numbered : ∀ (b : Nat) (h : b < blocks.length),
    blocks[b].num = b ∧ ∀ e ∈ blocks[b].actions, e.block = b
  old : ∀ e ∈ blocks.flatMap (·.actions), ∀ r ∈ optRegions e.action.old,
    e.action.writeRegion = some r ∨ r ∈ e.action.operandRegions
  keyed : ∀ e ∈ blocks.flatMap (·.actions), e.action.writeRegion ≠ some (.bss none)
  keyedReads : .bss none ∉ relevantRegions blocks order condTrees
  identified : ∀ block ∈ sliceBlocks blocks order, ∀ s ∈ block.sources,
    ∀ e ∈ orderReads blocks order condTrees, Expr.same s e = true → exprRegions s = exprRegions e

variable {blocks order condTrees}

theorem mem_orderReads {b : Nat} {block : Block} (hb : b ∈ order) (hblock : blocks[b]? = some block)
    {x : Expr} (hx : x ∈ block.reads) : x ∈ orderReads blocks order condTrees :=
  List.mem_append_right _ (List.mem_flatMap.mpr ⟨block, mem_sliceBlocks.mpr ⟨b, hb, hblock⟩, hx⟩)

theorem isRead_blockReads (b : Block) : ∀ x ∈ b.reads, x.isRead = true := by
  refine isRead_append (isRead_append (isRead_append ?_ ?_) ?_) (isRead_optReads _)
  · intro x hx
    obtain ⟨s, -, hx⟩ := List.mem_flatMap.mp hx
    exact isRead_exprReads s x hx
  · intro x hx
    obtain ⟨e, -, hx⟩ := List.mem_flatMap.mp hx
    have hoperands : ∀ x ∈ e.action.operandReads, x.isRead = true :=
      isRead_append (isRead_append (isRead_optReads _) (isRead_optReads _)) (isRead_optReads _)
    have hreread : ∀ x ∈ e.action.reread, x.isRead = true := by
      unfold Action.reread
      split
      · exact isRead_cons rfl nofun
      · exact nofun
    exact isRead_append (isRead_append hoperands hreread) (isRead_optReads _) x hx
  · cases b.cond with
    | none => exact nofun
    | some c => exact isRead_branchCondReads c

theorem isRead_orderReads : ∀ e ∈ orderReads blocks order condTrees, e.isRead = true := by
  refine isRead_append (isRead_condsReads _) fun x hx => ?_
  obtain ⟨b, -, hx⟩ := List.mem_flatMap.mp hx
  exact isRead_blockReads b x hx

theorem exprReads_subset_reads {b : Block} {s : Expr} (hs : s ∈ b.sources) :
    ∀ x ∈ exprReads s, x ∈ b.reads := fun _ hx =>
  List.mem_append_left _ (List.mem_append_left _ (List.mem_append_left _
    (List.mem_flatMap.mpr ⟨s, hs, hx⟩)))

theorem actionReads_subset_reads {b : Block} {e : Event} (he : e ∈ b.actions) :
    ∀ x ∈ e.action.operandReads ++ e.action.reread ++ optReads e.action.old, x ∈ b.reads :=
  fun _ hx => List.mem_append_left _ (List.mem_append_left _ (List.mem_append_right _
    (List.mem_flatMap.mpr ⟨e, he, hx⟩)))

theorem branchReads_subset_reads {b : Block} {c : Condition} (hc : b.cond = some c) :
    ∀ x ∈ branchCondReads c, x ∈ b.reads :=
  fun x hx => List.mem_append_left _ (List.mem_append_right _ (by rw [hc]; exact hx))

open ForwardContext in
/-- The needed regions cover what the program does along the order. -/
theorem Recorded.covered (h : Recorded blocks order condTrees) :
    Covered blocks order (orderReads blocks order condTrees)
      (· ∈ relevantRegions blocks order condTrees) where
  reads := isRead_orderReads
  actions b hb block hblock e he r hr hrel := by
    have hreads : ∀ x ∈ e.action.operandReads ++ e.action.reread ++ optReads e.action.old,
        x ∈ orderReads blocks order condTrees :=
      fun x hx => mem_orderReads hb hblock (actionReads_subset_reads he x hx)
    have hneeded := mem_relevantRegions.mp hrel
    have hoperands : ∀ r' ∈ e.action.operandRegions, r' ∈ relevantRegions blocks order condTrees :=
      fun r' hr' => mem_relevantRegions.mpr (.operand hb hblock he hr hneeded hr')
    have hmem : e ∈ blocks.flatMap (·.actions) :=
      List.mem_flatMap.mpr ⟨block, List.mem_of_getElem? hblock, he⟩
    refine ⟨⟨⟨fun x hx => hreads x ?_, hoperands⟩, fun x hx => hreads x ?_, ?_⟩,
      ⟨fun x hx => hreads x ?_, fun r' hr' => ?_⟩⟩
    · exact List.mem_append_left _ (List.mem_append_left _ hx)
    · exact List.mem_append_left _ (List.mem_append_right _ hx)
    · intro r' hr'
      exact Option.some.inj (hr.symm.trans hr') ▸ hrel
    · exact List.mem_append_right _ hx
    · rcases h.old e hmem r' hr' with hold | hold
      · exact Option.some.inj (hr.symm.trans hold) ▸ hrel
      · exact hoperands r' hold
  branches b hb block hblock c hc :=
    ⟨fun x hx => mem_orderReads hb hblock (branchReads_subset_reads hc x hx),
      fun r hr => mem_relevantRegions.mpr (.branch hb hblock hc hr)⟩
  returns b hb block hblock hkind := by
    refine ⟨fun x hx => mem_orderReads hb hblock (List.mem_append_right _ hx), fun r hr => ?_⟩
    unfold Block.retExpr at hr
    split at hr
    · cases hreg : block.regs 0 with
      | none =>
          rw [hreg] at hr
          exact absurd hr (by simp [optRegions])
      | some o =>
          rw [hreg] at hr
          exact mem_relevantRegions.mpr (.returned hb hblock hkind hreg hr)
    · exact absurd hr (by simp [optRegions])
  sources b hb block hblock s hs _ e he hsame hkept := by
    have hslice : block ∈ sliceBlocks blocks order := mem_sliceBlocks.mpr ⟨b, hb, hblock⟩
    refine ⟨fun x hx => mem_orderReads hb hblock (exprReads_subset_reads hs x hx), ?_⟩
    rw [h.identified block hslice s hs e he hsame]
    exact hkept.regions
  numbered b block hblock := by
    obtain ⟨hb, rfl⟩ := List.getElem?_eq_some_iff.mp hblock
    exact h.numbered b hb
  keyed := h.keyed
  keyedReads := h.keyedReads

theorem retained_of_mem {c : CondNode} (hc : c ∈ condTrees) :
    Retained (orderReads blocks order condTrees) (· ∈ relevantRegions blocks order condTrees)
      (condReads c) (condRegions c) := by
  have hreads : ∀ x ∈ condReads c, x ∈ condsReads condTrees := by
    intro x hx
    induction condTrees with
    | nil => cases hc
    | cons c' cs ih =>
        rcases List.mem_cons.mp hc with rfl | hc
        · exact List.mem_append_left _ hx
        · exact List.mem_append_right _ (ih hc)
  exact ⟨fun x hx => List.mem_append_left _ (hreads x hx),
    fun r hr => mem_relevantRegions.mpr (.condition hc hr)⟩

end Covers

section Same

open ForwardContext

variable {F : ForwardContext maps} {relevant fold : StateRegion → Bool} {order : List Nat}
  {condTrees : List CondNode} {w v : Walk maps}

theorem conditions_same (hrec : Recorded F.blocks order condTrees)
    (hkeep : KeepsAlike F relevant fold (· ∈ relevantRegions F.blocks order condTrees))
    (hw : F.walk order = .ok w) (hv : (F.keeping relevant fold).walk order = .ok v)
    (answers : Nat → Answer) :
    (∀ bc : BlockCondition, bc.cond ∈ condTrees → ∀ s,
      F.checkBlockCondition w answers bc s =
        (F.keeping relevant fold).checkBlockCondition v answers bc s) ∧
    ∀ ec : ExitCondition, ec.cond ∈ condTrees → ∀ s,
      F.checkExitCondition w answers ec s =
        (F.keeping relevant fold).checkExitCondition v answers ec s := by
  have hsame := walk_same hkeep hrec.covered hw hv
  constructor
  · intro bc hbc
    exact checkBlockCondition_same hkeep hrec.covered hsame answers (retained_of_mem hbc)
  · intro ec hec
    exact checkExitCondition_same hkeep hrec.covered hsame answers (retained_of_mem hec)

/-- Two walks along one order that keep the needed regions, and fold the same of them, find
the same guards and decide every condition alike, with the same queries: what else a context
keeps does not show. -/
theorem checks_eq_of_needed (F : ForwardContext maps) {relevant fold : StateRegion → Bool}
    {order : List Nat} {condTrees : List CondNode} (hrec : Recorded F.blocks order condTrees)
    (hkeep : KeepsAlike F relevant fold (· ∈ relevantRegions F.blocks order condTrees))
    {w v : Walk maps} (hw : F.walk order = .ok w) (hv : (F.keeping relevant fold).walk order = .ok v)
    (answers : Nat → Answer) :
    w.reachAt = v.reachAt ∧
    (∀ bc : BlockCondition, bc.cond ∈ condTrees → ∀ s,
      F.checkBlockCondition w answers bc s =
        (F.keeping relevant fold).checkBlockCondition v answers bc s) ∧
    ∀ ec : ExitCondition, ec.cond ∈ condTrees → ∀ s,
      F.checkExitCondition w answers ec s =
        (F.keeping relevant fold).checkExitCondition v answers ec s :=
  ⟨reachAt_same (walk_same hkeep hrec.covered hw hv), conditions_same hrec hkeep hw hv answers⟩

end Same

/-- `ctx->rx_queue_index = 5; r0 = 2; exit` -/
def queueMark : List Instr :=
  { exitInstr with opcodeClass := .ST, opcodeMode := .MEM, dstReg := 1, offset := 16, imm := 5 } ::
    returnInstrs 2

theorem recorded_queueMark : Recorded (trackedBlocks queueMark) [0] [(returns 2).cond] where
  numbered := by decide +kernel
  old := by decide +kernel
  keyed := by decide +kernel
  keyedReads := by decide +kernel
  identified := by decide +kernel

open ForwardContext in
/-- The write to the queue index is left out by a context that the return value is asked of. -/
theorem checks_eq_of_needed_queue :
    ∃ w v, (plainContext (trackedBlocks queueMark)).walk [0] = .ok w ∧
      ((plainContext (trackedBlocks queueMark)).keeping (fun _ => false) (fun _ => false)).walk [0] =
        .ok v ∧
      (w.info 0).map (fun i => decide (i.sigma.rxIndex = (makeInitState []).rxIndex)) = some false ∧
      (v.info 0).map (fun i => decide (i.sigma.rxIndex = (makeInitState []).rxIndex)) = some true ∧
      (plainContext (trackedBlocks queueMark)).checkExitCondition w (fun _ => .unsat) (returns 2) {} =
        ((plainContext (trackedBlocks queueMark)).keeping (fun _ => false)
          (fun _ => false)).checkExitCondition v (fun _ => .unsat) (returns 2) {} := by
  have hnone : relevantRegions (trackedBlocks queueMark) [0] [(returns 2).cond] = ∅ := by
    decide +kernel
  have hkeep : (plainContext (trackedBlocks queueMark)).KeepsAlike (fun _ => false) (fun _ => false)
      (· ∈ relevantRegions (trackedBlocks queueMark) [0] [(returns 2).cond]) := by
    rw [hnone]
    exact ⟨nofun, nofun, nofun⟩
  obtain ⟨w, hw, hwritten⟩ := okAnd_eq_true (x := (plainContext (trackedBlocks queueMark)).walk [0])
    (p := fun w => (w.info 0).map (fun i => decide (i.sigma.rxIndex = (makeInitState []).rxIndex)) =
      some false) (by decide +kernel)
  obtain ⟨v, hv, hkept⟩ := okAnd_eq_true
    (x := ((plainContext (trackedBlocks queueMark)).keeping (fun _ => false) (fun _ => false)).walk [0])
    (p := fun v => (v.info 0).map (fun i => decide (i.sigma.rxIndex = (makeInitState []).rxIndex)) =
      some true) (by decide +kernel)
  have hsame := checks_eq_of_needed (plainContext (trackedBlocks queueMark)) recorded_queueMark hkeep
    hw hv (fun _ => .unsat)
  exact ⟨w, v, hw, hv, of_decide_eq_true hwritten, of_decide_eq_true hkept,
    hsame.2.2 (returns 2) (List.mem_singleton_self _) {}⟩

end Hornet
