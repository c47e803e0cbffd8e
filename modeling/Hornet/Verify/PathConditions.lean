import Hornet.Verify.Witness

/-!
Conditions along paths. A condition is lowered at a block once, over the states of all
paths that reach it. Under a model it has the truth value that it has on the path of that
model alone, in the state that the path leaves at the end of the block.
-/

namespace Hornet

open Smt Lib

variable {maps : List MapInfo} {m : ZModel}

/-! ## Conditions in states that agree -/

/-- Terms of one truth value. -/
abbrev SameTruth (m : ZModel) (t t' : ZTerm .bool) : Prop := t.eval m = t'.eval m

/-- States of a condition that agree. -/
structure CondState.Agree (m : ZModel) (st st' : CondState maps) : Prop where
  reads : HooksAgree m st.reads st'.reads
  block : st.block = st'.block
  sigma : st.sigma.Agree m st'.sigma
  readLoc : ∀ loc, Related (fun t t' => t.eval m = t'.eval m) (st.readLoc loc) (st'.readLoc loc)

/-- Atoms as they are parsed: the result of a helper is one that a call returned, and the
return value of the program is asked for at exits only. -/
def Atom.Parsed (exit : Bool) : Atom → Prop
  | .helperScalar retval _ _ => ∃ r, retval = .funcRetval r
  | .ret .. => exit = true
  | _ => True

mutual

def CondNode.Parsed (exit : Bool) : CondNode → Prop
  | .leaf atom => atom.Parsed exit
  | .not child => child.Parsed exit
  | .and children | .or children => CondNode.ParsedAll exit children

def CondNode.ParsedAll (exit : Bool) : List CondNode → Prop
  | [] => True
  | c :: cs => c.Parsed exit ∧ CondNode.ParsedAll exit cs

end

section Conditions

variable {st st' : CondState maps}

theorem eqOp_agree (op : EqOp) {t t' : ZTerm .bool} (h : SameTruth m t t') :
    SameTruth m (op.apply t) (op.apply t') := by
  cases op with
  | eq => exact h
  | ne => exact congrArg Bool.not h

theorem relOp_agree (op : RelOp) {n : Nat} {v v' rhs : ZTerm (.bv n)}
    (h : v.eval m = v'.eval m) : SameTruth m (op.term v rhs) (op.term v' rhs) := by
  cases op <;> simp only [SameTruth, RelOp.term, Term.eval_cmp, Term.eval_not, h]

theorem eqValue_agree {cell cell' : ZBv} (h : SameCell m cell cell') (value : Int) :
    SameTruth m (.cmp .eq cell.term (bvVal value cell.size))
      (.cmp .eq cell'.term (bvVal value cell'.size)) := by
  obtain ⟨n, t⟩ := cell
  obtain ⟨n', t'⟩ := cell'
  obtain ⟨rfl, hvalue⟩ := h
  have heval : t.eval m = t'.eval m := BitVec.eq_of_toNat_eq hvalue
  simp only [SameTruth, Term.eval_cmp, heval]

theorem all_eval_same {ts ts' : List (ZTerm .bool)} (h : List.Forall₂ (SameTruth m) ts ts') :
    ts.map (·.eval m) = ts'.map (·.eval m) := map_eq_of_forall₂ (fun _ _ h => h) h

theorem andTerms_agree {ts ts' : List (ZTerm .bool)} (h : List.Forall₂ (SameTruth m) ts ts') :
    SameTruth m (andTerms ts) (andTerms ts') := by
  have hall : ∀ us : List (ZTerm .bool), us.all (·.eval m) = (us.map (·.eval m)).all id :=
    fun us => by rw [List.all_map]; rfl
  rw [SameTruth, eval_andTerms, eval_andTerms, hall, hall, all_eval_same h]

theorem orTermsAny_agree {ts ts' : List (ZTerm .bool)} (h : List.Forall₂ (SameTruth m) ts ts') :
    SameTruth m (orTermsAny ts) (orTermsAny ts') := by
  have hany : ∀ us : List (ZTerm .bool), us.any (·.eval m) = (us.map (·.eval m)).any id :=
    fun us => by rw [List.any_map]; rfl
  rw [SameTruth, eval_orTermsAny, eval_orTermsAny, hany, hany, all_eval_same h]

theorem funcRetvalTerm_same (r : FuncRetval Expr) {ok ok' : Option (ZTerm .bool)}
    (h : Option.Rel (SameTruth m) ok ok') :
    SameCell m (funcRetvalTerm r ok) (funcRetvalTerm r ok') := by
  unfold funcRetvalTerm
  dsimp only
  split
  · cases h with
    | none => exact ⟨rfl, rfl⟩
    | some h => exact sameCell_of_eval (by simp only [Term.eval_ite, h])
  · split <;> exact ⟨rfl, rfl⟩

theorem extractByte_same {t t' : ZBv} (h : Hornet.Agree m t t') (lo : Nat) :
    SameCell m ⟨8, .extract lo 8 t.term⟩ ⟨8, .extract lo 8 t'.term⟩ := by
  apply sameCell_of_eval
  apply BitVec.eq_of_toNat_eq
  have hvalue : (t.term.eval m).toNat = (t'.term.eval m).toNat := h.1
  simp only [Term.eval_extract, BitVec.extractLsb'_toNat, hvalue]

namespace CondState.Agree

variable (h : st.Agree m st')

include h

theorem expr (e : Expr) : Related (Hornet.Agree m) (exprToZ3 st.reads st.block st.sigma e)
    (exprToZ3 st'.reads st'.block st'.sigma e) :=
  h.block ▸ exprToZ3_agree h.reads h.sigma st.block e

theorem hit (mapId : Option Nat) (mapKey : Option Expr) (mapKeyId : Option Int) (result : Bool) :
    Related (fun g g' : Guard => SameTruth m g.toTerm g'.toTerm)
      (Condition.toZ3 st.reads st.block st.sigma (.containMapValue mapId mapKey mapKeyId result))
      (Condition.toZ3 st'.reads st'.block st'.sigma
        (.containMapValue mapId mapKey mapKeyId result)) := by
  have hcond := condition_agree h.reads h.sigma st.block
    (.containMapValue mapId mapKey mapKeyId result) (fun _ _ _ _ h => Condition.noConfusion h)
  rw [h.block] at hcond ⊢
  refine hcond.mono fun g g' hg => ?_
  have hterm : ∀ g : Guard, g.toTerm.eval m = g.eval m := fun g => by cases g <;> rfl
  rw [SameTruth, hterm, hterm, hg]

theorem bytesEq (loc : Loc) (size : Nat) (value : Int) :
    Related (SameTruth m) (st.bytesEq loc size value) (st'.bytesEq loc size value) := by
  have hcells : Related (List.Forall₂ (SameCell m)) (st.readBytes loc size)
      (st'.readBytes loc size) :=
    .mapM _ fun i _ => (h.readLoc { loc with off := loc.off + i, size := 1 }).bind
      fun b b' hb => .pure (sameCell_of_eval hb)
  refine hcells.bind fun cells cells' hcells => ?_
  exact (concatCells_same hcells).bind fun got got' hgot => .pure (eqValue_agree hgot value)

/-- The value that a call returned has one width in both states. -/
theorem returned (r : FuncRetval Expr) :
    Related (SameCell m) (exprToZ3 st.reads st.block st.sigma (.funcRetval r))
      (exprToZ3 st'.reads st'.block st'.sigma (.funcRetval r)) := by
  obtain ⟨size, idx, func, block, mapId, mapKey, mapKeyId, fallback, redirects⟩ := r
  unfold exprToZ3
  dsimp only
  split
  · cases mapId with
    | none => exact .pure ⟨rfl, rfl⟩
    | some mapId =>
        cases mapKey with
        | none => exact .pure ⟨rfl, rfl⟩
        | some k =>
            refine (h.expr k).bind fun key key' hkey => ?_
            rw [← h.block]
            refine (containTerm_agree h.reads h.sigma _ _ hkey _ true).bind fun ok ok' hok => ?_
            exact .pure (funcRetvalTerm_same _ (.some hok))
  · exact .pure (funcRetvalTerm_same _ .none)

end CondState.Agree

/-- An atom has one truth value in both states. -/
theorem atom_agree {exit : Bool} (h : st.Agree m st')
    (hr0 : exit = true → st.sigma.r0.eval m = st'.sigma.r0.eval m) (a : Atom)
    (ha : a.Parsed exit) : Related (SameTruth m) (a.toZ3 st) (a.toZ3 st') := by
  cases a with
  | pkt offset data op =>
      have heqs := Related.mapM (R := SameTruth m) data.zipIdx fun x _ =>
        (h.readLoc ⟨.PKT, offset + x.2, 1, none, none, none⟩).bind
          (f := fun b => pure (Term.cmp .eq b (bvVal x.1 8)))
          (g := fun b => pure (Term.cmp .eq b (bvVal x.1 8)))
          fun b b' hb => .pure (by simp only [SameTruth, Term.eval_cmp, hb])
      exact heqs.bind fun _ _ heqs => .pure (eqOp_agree op (andTerms_agree heqs))
  | map mapId key present value keySize valueSize =>
      refine (h.hit _ _ _ _).bind fun g g' hg => ?_
      cases value with
      | some value =>
          refine (h.bytesEq _ valueSize value).bind fun eq eq' heq => .pure ?_
          simp only [SameTruth, Term.eval_and, hg, heq]
      | none =>
          refine .pure ?_
          split
          · exact hg
          · exact congrArg Bool.not hg
  | bss sym offset size value op =>
      exact (h.bytesEq _ size value).bind fun eq eq' heq => .pure (eqOp_agree op heq)
  | len min max =>
      have hparts : List.Forall₂ (SameTruth m)
          ((min.map fun v => Term.cmp .ule (bvVal v 64) st.sigma.pktLen).toList ++
            (max.map fun v => Term.cmp .ule st.sigma.pktLen (bvVal v 64)).toList)
          ((min.map fun v => Term.cmp .ule (bvVal v 64) st'.sigma.pktLen).toList ++
            (max.map fun v => Term.cmp .ule st'.sigma.pktLen (bvVal v 64)).toList) := by
        have hlen := h.sigma.pktLen
        cases min <;> cases max <;> simp [SameTruth, hlen]
      simp only [Atom.toZ3]
      revert hparts
      generalize (min.map fun v => Term.cmp .ule (bvVal v 64) st.sigma.pktLen).toList ++ _ = ts
      generalize (min.map fun v => Term.cmp .ule (bvVal v 64) st'.sigma.pktLen).toList ++ _ = ts'
      intro hparts
      cases hparts with
      | nil => exact .error _
      | cons ht hts => exact .pure (andTerms_agree (.cons ht hts))
  | scalar target value =>
      refine .pure ?_
      cases target with
      | ingress => simp only [SameTruth, Term.eval_cmp, h.sigma.ingress]
      | rxIndex => simp only [SameTruth, Term.eval_cmp, h.sigma.rxIndex]
      | egress => simp only [SameTruth, Term.eval_cmp, h.sigma.egress]
  | helperScalar retval op value =>
      obtain ⟨r, rfl⟩ := ha
      refine (h.returned r).bind fun v v' hv => .pure ?_
      obtain ⟨n, t⟩ := v
      obtain ⟨n', t'⟩ := v'
      obtain ⟨rfl, hvalue⟩ := hv
      exact relOp_agree op (BitVec.eq_of_toNat_eq hvalue)
  | helperNull mapId mapKey mapKeyId result =>
      exact (h.hit mapId mapKey mapKeyId result).bind fun g g' hg => .pure hg
  | ret op value => exact .pure (relOp_agree op (hr0 ha))
  | read parts op target =>
      have hbytes := Related.mapM (R := SameCell m) parts fun p _ =>
        (h.expr p.1).bind
          (f := fun t => pure (⟨8, .extract (p.2 * 8) 8 t.term⟩ : ZBv))
          (g := fun t => pure (⟨8, .extract (p.2 * 8) 8 t.term⟩ : ZBv))
          fun t t' ht => .pure (extractByte_same ht _)
      refine hbytes.bind fun cells cells' hcells => ?_
      exact (concatCells_same hcells).bind fun v v' hv =>
        .pure (eqOp_agree op (eqValue_agree hv target))

mutual

/-- A condition has one truth value in both states. -/
theorem cond_agree {exit : Bool} (h : st.Agree m st')
    (hr0 : exit = true → st.sigma.r0.eval m = st'.sigma.r0.eval m) :
    (c : CondNode) → c.Parsed exit → Related (SameTruth m) (c.toZ3 st) (c.toZ3 st')
  | .leaf atom, hc => atom_agree h hr0 atom hc
  | .not child, hc =>
      (cond_agree h hr0 child hc).bind fun _ _ ht => .pure (congrArg Bool.not ht)
  | .and children, hc =>
      (conds_agree h hr0 children hc).bind fun _ _ hts => .pure (andTerms_agree hts)
  | .or children, hc =>
      (conds_agree h hr0 children hc).bind fun _ _ hts => .pure (orTermsAny_agree hts)

theorem conds_agree {exit : Bool} (h : st.Agree m st')
    (hr0 : exit = true → st.sigma.r0.eval m = st'.sigma.r0.eval m) :
    (cs : List CondNode) → CondNode.ParsedAll exit cs →
      Related (List.Forall₂ (SameTruth m)) (CondNode.toZ3List st cs) (CondNode.toZ3List st' cs)
  | [], _ => .pure .nil
  | c :: cs, hcs =>
      (cond_agree h hr0 c hcs.1).bind fun _ _ ht =>
        (conds_agree h hr0 cs hcs.2).bind fun _ _ hts => .pure (.cons ht hts)

end

end Conditions

/-! ## What a path makes of a condition -/

namespace ForwardContext

variable (F : ForwardContext maps)

/-- What a condition reads at a place, in the state of the path. -/
def pathReadLoc (w : Walk maps) (p : PathRun maps) (b : Nat) (loc : Loc) :
    Except LowerError (ZTerm (.bv 8)) :=
  match loc.region with
  | .PKT => pure (.select p.sigma.pkt (bvVal loc.off PKT_ADDR_BITS))
  | .MAP =>
      match loc.mapId, loc.mapKey with
      | some mapId, some mapKey => do
          let k ← exprToZ3 (some (F.pathReads w p b)) none F.initSt mapKey
          let val := Term.select (p.sigma.map mapId).value (resize k (keyBits maps mapId))
          if loc.off < 0 then throw (.negativeOffset loc.off)
          else
            let lo := loc.off.toNat * 8
            pure (if valBits maps mapId ≤ lo then bvVal 0 8 else .extract lo 8 val)
      | _, _ => throw .noMap
  | .BSS => pure (.select (bssOf p.sigma loc.bssKey) (bvVal loc.off BSS_ADDR_BITS))
  | .CTX => throw .noEncoding

/-- What a condition of block `b` is asked of on a path that stands in `p.sigma` there. -/
def pathState (w : Walk maps) (p : PathRun maps) (b : Nat) : CondState maps where
  reads := some (F.pathReads w p b)
  block := some b
  sigma := p.sigma
  readLoc := F.pathReadLoc w p b

/-- What a condition of an exit is asked of, with the return value of the path. -/
def pathExit (w : Walk maps) (p : PathRun maps) (b : Nat) :
    Except LowerError (Option (CondState maps)) :=
  match F.retExprAt b with
  | none => pure none
  | some ret => do
      let st := F.pathState w p b
      let r ← exprToZ3 st.reads st.block p.sigma ret
      pure (some { st with sigma := { p.sigma with r0 := resize r 64 } })

/-- The path that the model takes comes to block `b` and leaves the state of `p` there. -/
def PathStands (order : List Nat) (m : ZModel) (b : Nat) (p : PathRun maps) : Prop :=
  ∃ run sigma, F.pathRun m order = .ok run ∧ run.ends b = some sigma ∧
    p = { run with sigma := sigma }

variable (w : Walk maps) (order : List Nat)

/-- The path that the model takes comes to block `b`, where the condition has the value `v`. -/
def PathMeets (b : Nat) (c : CondNode) (v : Bool) (m : ZModel) : Prop :=
  ∃ p body, F.PathStands order m b p ∧ c.toZ3 (F.pathState w p b) = .ok body ∧ body.eval m = v

/-- The path that the model takes ends in exit `b`, where the condition has the value `v`. -/
def PathReturns (b : Nat) (c : CondNode) (v : Bool) (m : ZModel) : Prop :=
  ∃ p st body, F.PathStands order m b p ∧ F.pathExit w p b = .ok (some st) ∧
    c.toZ3 st = .ok body ∧ body.eval m = v

section Beside

variable {F w order} {p : PathRun maps} {b : Nat} {sigma : Z3State maps}

theorem readLoc_agree (hfold : ∀ r, F.fold r = false) (h : F.InBlock m b w p)
    (hsigma : (F.sigmaAt w (some b)).Agree m p.sigma) (loc : Loc) :
    Related (fun t t' => t.eval m = t'.eval m) (F.readLoc w b loc) (F.pathReadLoc w p b loc) := by
  unfold readLoc pathReadLoc
  simp only [hfold, Bool.false_eq_true, if_false]
  cases loc.region with
  | PKT => exact .pure (by simp only [Term.eval_select, hsigma.pkt])
  | BSS => exact .pure (by simp only [Term.eval_select, hsigma.bss])
  | CTX => exact .error _
  | MAP =>
      obtain ⟨-, off, -, mapId, mapKey, -⟩ := loc
      cases mapId with
      | none => exact .error _
      | some mapId =>
          cases mapKey with
          | none => exact .error _
          | some key =>
              refine (exprToZ3_agree (hooked_agree hfold h rfl) (.refl _) none key).bind
                fun k k' hk => ?_
              dsimp only
              split
              · exact .error _
              · refine .pure ?_
                split
                · rfl
                · simp only [Term.eval_extract, Term.eval_select, hsigma.value, hk.resize]

/-- After the walk, at the end of a block that the path has left. -/
theorem inBlock_of_left (h : F.Runs m w p) (hcur : w.curBlock = none)
    (hend : p.ends b = some sigma) : F.InBlock m b w { p with sigma := sigma } := by
  refine ⟨⟨h.memo, h.lookupSigma, h.left, h.ends, h.sized, h.sizedPath⟩, fun k => ?_⟩
  cases k with
  | none =>
      simp only [sigmaAt, hcur]
      exact .refl _
  | some k =>
      have hends := h.ends k
      have hstate : F.sigmaAt w (some k) = F.stateAt w k := by
        simp [sigmaAt, hcur, stateAt]
      rw [hstate]
      unfold pathSigmaAt
      dsimp only
      split
      · rename_i hk
        rw [hk] at hends ⊢
        exact hends sigma hend
      · cases hstay : p.ends k with
        | none => exact .refl _
        | some s => exact hends s hstay

/-- The state that a condition is asked of agrees with the one on the path. -/
theorem condState_agree (hfold : ∀ r, F.fold r = false) (h : F.Runs m w p)
    (hcur : w.curBlock = none) (hend : p.ends b = some sigma) :
    (F.condState w b).Agree m (F.pathState w { p with sigma := sigma } b) := by
  have hblock := inBlock_of_left h hcur hend
  have hsigma : (F.sigmaAt w (some b)).Agree m sigma := by
    simpa [pathSigmaAt] using hblock.sigma (some b)
  exact ⟨hooked_agree hfold hblock rfl, rfl, h.ends b sigma hend, readLoc_agree hfold hblock hsigma⟩

/-- The return value of an exit, and the one of the path that ends there. -/
theorem exitState_agree (h : (F.condState w b).Agree m (F.pathState w p b)) :
    Related (Option.Rel fun st st' => st.Agree m st' ∧ st.sigma.r0.eval m = st'.sigma.r0.eval m)
      (F.exitState w b) (F.pathExit w p b) := by
  simp only [exitState, retState, pathExit, retExprAt]
  cases (F.blocks[b]?).bind Block.retExpr with
  | none => exact .pure .none
  | some ret =>
      simp only [bind_assoc]
      refine (h.expr ret).bind fun r r' hr => .pure (.some ⟨?_, hr.resize 64⟩)
      have hsigma := h.sigma
      exact { h with sigma := { hsigma with } }

end Beside

/-! ### The conditions of a walk -/

/-- A model of the reach condition of a block in which the condition has the value `v`. -/
def Meets (b : Nat) (c : CondNode) (v : Bool) (m : ZModel) : Prop :=
  ∃ body, c.toZ3 (F.condState w b) = .ok body ∧ (w.reachAt b).eval m = true ∧ body.eval m = v

/-- A model of the reach condition of an exit in which the condition has the value `v`. -/
def Returns (b : Nat) (c : CondNode) (v : Bool) (m : ZModel) : Prop :=
  ∃ st body, F.exitState w b = .ok (some st) ∧ c.toZ3 st = .ok body ∧
    (w.reachAt b).eval m = true ∧ body.eval m = v

/-- A path that a walk refines. -/
structure Refines (p : PathRun maps) (m : ZModel) : Prop where
  run : F.pathRun m order = .ok p
  runs : F.Runs m w p
  reached : ∀ b, (w.reachAt b).eval m = true ↔ (p.ends b).isSome

variable {F w order}

/-- The walk refines the path of every model. -/
theorem refines_walk (hfold : ∀ r, F.fold r = false) (hlinked : WellLinked F.blocks)
    (hfree : ∀ block ∈ F.blocks, ∀ c, block.cond = some c → c.WidthFree)
    (hentry : 0 < F.blocks.length) {targets : Option (List Nat)}
    (horder : topoOrder F.blocks (keptBlocks F.blocks targets) = .ok order)
    (hw : F.walk order = .ok w) (m : ZModel) : ∃ p, F.Refines w order p m := by
  have hkept := kept_keptBlocks hentry targets
  have hwalk := walkOrder_of_topoOrder hkept horder
  obtain ⟨v, hrun, hv⟩ := bind_eq_ok.mp hw
  obtain ⟨s, hs, -, last, hbeside⟩ := beside_walk (m := m) hfold hlinked hfree
    (fun b hb => (mem_forwardReachable.mp (hkept.live b hb)).2) hwalk hrun
  refine ⟨s.2, ?_, ?_, fun b => ?_⟩
  · simp only [pathRun, hs]
    rfl
  · have hruns := hbeside.runs
    cases hv
    exact ⟨hruns.memo, hruns.lookupSigma, hruns.left, hruns.ends, (walkPoint_walk hw).memoSized,
      hruns.sizedPath⟩
  · rw [reachAt_eval_iff hw m b, ← hbeside.reached b]
    cases hv
    rfl

section Paths

variable {p : PathRun maps} {b : Nat} {sigma : Z3State maps} {c : CondNode} {val : Bool}

theorem Refines.condState (hp : F.Refines w order p m) (hfold : ∀ r, F.fold r = false)
    (hcur : w.curBlock = none) (hend : p.ends b = some sigma) :
    (F.condState w b).Agree m (F.pathState w { p with sigma := sigma } b) :=
  condState_agree hfold hp.runs hcur hend

/-- The path stands in a block exactly where the block's reach condition is true. -/
theorem Refines.stands (hp : F.Refines w order p m) (hreach : (w.reachAt b).eval m = true) :
    ∃ sigma, p.ends b = some sigma ∧ F.PathStands order m b { p with sigma := sigma } := by
  obtain ⟨sigma, hend⟩ := Option.isSome_iff_exists.mp ((hp.reached b).mp hreach)
  exact ⟨sigma, hend, p, sigma, hp.run, hend, rfl⟩

theorem Refines.of_stands (hp : F.Refines w order p m) {q : PathRun maps}
    (hq : F.PathStands order m b q) :
    ∃ sigma, p.ends b = some sigma ∧ q = { p with sigma := sigma } ∧
      (w.reachAt b).eval m = true := by
  obtain ⟨run, sigma, hrun, hend, rfl⟩ := hq
  obtain rfl := Except.ok.inj (hrun.symm.trans hp.run)
  exact ⟨sigma, hend, rfl, (hp.reached b).mpr (by rw [hend]; rfl)⟩

/-- A condition of a block is met by a model exactly if it is met on the model's path. -/
theorem Refines.meets_iff (hp : F.Refines w order p m) (hfold : ∀ r, F.fold r = false)
    (hcur : w.curBlock = none) (hc : c.Parsed false) :
    F.Meets w b c val m ↔ F.PathMeets w order b c val m := by
  have hagree : ∀ sigma, p.ends b = some sigma → Related (SameTruth m)
      (c.toZ3 (F.condState w b)) (c.toZ3 (F.pathState w { p with sigma := sigma } b)) :=
    fun sigma hend => by
      refine cond_agree (hp.condState hfold hcur hend) ?_ c hc
      exact nofun
  constructor
  · rintro ⟨body, hbody, hreach, hval⟩
    obtain ⟨sigma, hend, hstands⟩ := hp.stands hreach
    have hrel := hagree sigma hend
    rw [hbody] at hrel
    obtain ⟨body', hbody', hsame⟩ := hrel.ok_left
    exact ⟨_, body', hstands, hbody', hsame.symm.trans hval⟩
  · rintro ⟨q, body', hstands, hbody', hval⟩
    obtain ⟨sigma, hend, rfl, hreach⟩ := hp.of_stands hstands
    have hrel := hagree sigma hend
    rw [hbody'] at hrel
    obtain ⟨body, hbody, hsame⟩ := hrel.ok_right
    exact ⟨body, hbody, hreach, hsame.trans hval⟩

/-- A condition of an exit is met by a model exactly if it is met where its path ends. -/
theorem Refines.returns_iff (hp : F.Refines w order p m) (hfold : ∀ r, F.fold r = false)
    (hcur : w.curBlock = none) (hc : c.Parsed true) :
    F.Returns w b c val m ↔ F.PathReturns w order b c val m := by
  have hexit : ∀ sigma, p.ends b = some sigma → Related _
      (F.exitState w b) (F.pathExit w { p with sigma := sigma } b) :=
    fun sigma hend => exitState_agree (hp.condState hfold hcur hend)
  constructor
  · rintro ⟨st, body, hst, hbody, hreach, hval⟩
    obtain ⟨sigma, hend, hstands⟩ := hp.stands hreach
    have hstates := hexit sigma hend
    rw [hst] at hstates
    obtain ⟨_, hst', ⟨hagree, hr0⟩⟩ := hstates.ok_left
    have hrel := cond_agree hagree (fun _ => hr0) c hc
    rw [hbody] at hrel
    obtain ⟨body', hbody', hsame⟩ := hrel.ok_left
    exact ⟨_, _, body', hstands, hst', hbody', hsame.symm.trans hval⟩
  · rintro ⟨q, st', body', hstands, hst', hbody', hval⟩
    obtain ⟨sigma, hend, rfl, hreach⟩ := hp.of_stands hstands
    have hstates := hexit sigma hend
    rw [hst'] at hstates
    obtain ⟨_, hst, ⟨hagree, hr0⟩⟩ := hstates.ok_right
    have hrel := cond_agree hagree (fun _ => hr0) c hc
    rw [hbody'] at hrel
    obtain ⟨body, hbody, hsame⟩ := hrel.ok_right
    exact ⟨_, body, hst, hbody, hreach, hsame.trans hval⟩

/-- The path comes to a block exactly where the block's reach condition is true. -/
theorem Refines.comes_iff (hp : F.Refines w order p m) :
    (w.reachAt b).eval m = true ↔ ∃ q, F.PathStands order m b q := by
  constructor
  · intro hreach
    obtain ⟨sigma, -, hstands⟩ := hp.stands hreach
    exact ⟨_, hstands⟩
  · rintro ⟨q, hstands⟩
    obtain ⟨_, -, -, hreach⟩ := hp.of_stands hstands
    exact hreach

end Paths

end ForwardContext

end Hornet
