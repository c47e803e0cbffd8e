import Hornet.Track.MemoryStep
import Hornet.Verify.Alias
import Hornet.Verify.Executed
import Hornet.Verify.SlicedMemory

/-!
Folded regions against the execution of a path. A folded read goes through one list of all
writes. It finds under a model what the writes on the path of the model leave, executed one
after the other up to the read; the same holds of the presence of a key.
-/

namespace Hornet

open Smt Lib

variable {maps : List MapInfo} {m : ZModel}

/-! ## The machine of the writes -/

/-- The keys that are present. -/
abbrev PresentKeys (maps : List MapInfo) : Type :=
  (mapId : Nat) → BitVec (keyBits maps mapId) → Bool

namespace Memory

variable (M : Memory maps) (m : ZModel)

/-- The value of a key. -/
def keyOf (mapId : Nat) (e : Option Expr) : BitVec (keyBits maps mapId) :=
  match M.key mapId e with
  | .ok k => k.eval m
  | .error _ => 0#_

/-- Whether a write to a map takes effect, given the keys that are present in it. -/
def takesEffect (mapId : Nat) (present : BitVec (keyBits maps mapId) → Bool) (e : Event) : Bool :=
  match e.action with
  | .mapUpdate _ mapKey _ flags _ =>
      let k := M.keyOf m mapId mapKey
      Contents.ruleApplies flags (m .bool (.updateApplies e.idx))
        (if isArrayMap maps mapId then inRange maps mapId k else present k)
  | _ => true

/-- The keys that are present after an event. -/
def presenceStep (present : PresentKeys maps) (e : Event) : PresentKeys maps := fun mapId k =>
  match e.action.presence with
  | none => present mapId k
  | some v =>
      if e.action.mapId = some mapId ∧ e.action.mapKey.all (fun x => M.keyOf m mapId (some x) = k) ∧
        M.takesEffect m mapId (present mapId) e then v
      else present mapId k

/-- The keys that are present after events from the entry on. -/
def presenceAfter (es : List Event) : PresentKeys maps :=
  es.foldl (M.presenceStep m) fun mapId => (M.st.map mapId).present.eval m

/-- The number that an operand denotes. -/
def valueOf (e : Option Expr) : Nat :=
  match M.lowerSome e with
  | .ok v => v.toNat m
  | .error _ => 0

/-- Where a write goes, a variable offset included. -/
def offsetOf (w : Action) : Int := w.off + (w.varOff.map fun v => (M.valueOf m (some v) : Int)).getD 0

/-- The number that a write stores; an addition stores the sum with what it has read. -/
def stored (w : Action) : Nat := (w.old.map fun o => M.valueOf m (some o)).getD 0 + M.valueOf m w.value

/-- A write to the value or the symbol of a location. -/
def sameObject (loc : Loc) (w : Action) : Bool :=
  match loc.region with
  | .MAP => w.mapId = loc.mapId && loc.mapId.all fun mapId =>
      decide (M.keyOf m mapId loc.mapKey = M.keyOf m mapId w.mapKey)
  | .BSS => w.bssKey = loc.bssKey
  | _ => true

/-- A write that a location is among the bytes of. -/
def reaches (loc : Loc) (w : Action) : Bool :=
  w.region = some loc.region && M.sameObject m loc w &&
    (M.offsetOf m w ≤ loc.off && loc.off < M.offsetOf m w + max w.size 1)

/-- What a write leaves in the byte at an offset. -/
def leftByte (w : Action) (off : Int) : BitVec 8 :=
  BitVec.ofNat 8 (M.stored m w / 2 ^ (8 * (off - M.offsetOf m w).toNat))

def effective (present : PresentKeys maps) (e : Event) : Bool :=
  e.action.mapId.all fun mapId => M.takesEffect m mapId (present mapId) e

/-- What an event leaves at a location, if it changes it. -/
def leaves (present : PresentKeys maps) (loc : Loc) (e : Event) : Option (BitVec 8) :=
  if M.reaches m loc e.action && M.effective m present e then some (M.leftByte m e.action loc.off)
  else none

end Memory

/-- The memory while a path is executed: the keys that are present, and the bytes. -/
structure Machine (maps : List MapInfo) where
  present : PresentKeys maps
  byte : Loc → BitVec 8

namespace Memory

variable (M : Memory maps) (m : ZModel)

/-- The memory at the entry. -/
def start : Machine maps where
  present mapId := (M.st.map mapId).present.eval m
  byte loc :=
    match M.initialAt loc with
    | .ok (some t) => t.eval m
    | _ => 0#8

def step (s : Machine maps) (e : Event) : Machine maps where
  present := M.presenceStep m s.present e
  byte loc := (M.leaves m s.present loc e).getD (s.byte loc)

def execute (es : List Event) : Machine maps := es.foldl (M.step m) (M.start m)

/-- What the fold takes for granted: the writes that may go to a location have constant
offsets, name their value or symbol, and their keys are told apart as expressions. -/
structure Tells (loc : Loc) (w : Action) : Prop where
  fixed : mayAlias loc w = true → w.varOff = none
  named : loc.region = .BSS → w.region = some .BSS → loc.bssKey.isSome ∧ w.bssKey.isSome
  keyed : loc.region = .MAP → w.region = some .MAP →
    loc.mapId.isSome ∧ loc.mapKey.isSome ∧ w.mapKey.isSome
  constants : ∀ a b mapId, loc.mapKey.bind Expr.num? = some a → w.mapKey.bind Expr.num? = some b →
    loc.mapId = some mapId → (a = b ↔ M.keyOf m mapId loc.mapKey = M.keyOf m mapId w.mapKey)
  same : ∀ mapId, Expr.sameOpt loc.mapKey w.mapKey = true → loc.mapId = some mapId →
    M.keyOf m mapId loc.mapKey = M.keyOf m mapId w.mapKey

end Memory

namespace ForwardContext

section Presence

variable {F : ForwardContext maps} {w : Walk maps} {kept order : List Nat}
  {lower : Expr → Except LowerError ZBv}

/-- Only updates and deletes change the presence of keys. -/
theorem presenceAfter_filter (M : Memory maps) (es : List Event) :
    M.presenceAfter m (es.filter (·.action.presence.isSome)) = M.presenceAfter m es := by
  have hskip (present : PresentKeys maps) {e : Event} (he : e.action.presence.isSome = false) :
      M.presenceStep m present e = present := by
    funext mapId k
    simp only [Option.isSome_eq_false_iff, Option.isNone_iff_eq_none] at he
    simp only [Memory.presenceStep, he]
  rw [Memory.presenceAfter, Memory.presenceAfter, List.foldl_filter]
  congr 1
  funext present e
  split
  · rfl
  · rename_i he
    exact (hskip present (Bool.eq_false_iff.mpr he)).symm

/-- The presence before an update or a delete is that after the ones to its left. -/
theorem presence_before (h : Listed F.blocks) (M : Memory maps) {done rest : List Event}
    {e : Event} (hsplit : (F.mem w lower).presenceWrites = done ++ e :: rest) :
    M.presenceAfter m (F.executed w m e.block (some e.idx)) =
      M.presenceAfter m (done.filter fun x => (w.reachAt x.block).eval m) := by
  have hsorted := (pairwise_events h).filter (·.action.presence.isSome)
  have hdone := filter_before hsorted hsplit
  rw [← presenceAfter_filter, executed, ← hdone, List.filter_filter, List.filter_filter,
    List.filter_filter]
  congr 1
  apply List.filter_congr
  intro x _
  cases x.action.presence.isSome <;> cases (w.reachAt x.block).eval m <;>
    cases x.before e.block (some e.idx) <;> rfl

/-- The guard of an update says whether it takes effect. -/
theorem eval_appliesWith {M : Memory maps} {present : (mapId : Nat) →
      ZTerm (.bv (keyBits maps mapId)) → Option Nat → Option Int → Except LowerError (ZTerm .bool)}
    {mapId : Nat} {before : BitVec (keyBits maps mapId) → Bool} {e : Event} {g : Guard}
    (hmap : e.action.mapId = some mapId)
    (hpresent : ∀ k t, present mapId k (some e.block) (some e.idx) = .ok t →
      t.eval m = before (k.eval m))
    (hrun : M.appliesWith present e = .ok g) : g.eval m = M.takesEffect m mapId before e := by
  unfold Memory.appliesWith at hrun
  split at hrun
  · rename_i mapId' mapKey value flags size haction
    obtain rfl : mapId' = mapId := by
      rw [haction] at hmap
      exact Option.some.inj hmap
    rw [Memory.takesEffect, haction]
    dsimp only
    split at hrun
    · rename_i hflags
      obtain ⟨f, rfl, hf⟩ := Option.map_eq_some_iff.mp hflags
      cases hrun
      rw [Contents.ruleApplies, if_pos hf]
      rfl
    · obtain ⟨k, hk, hrun⟩ := bind_eq_ok.mp hrun
      have hkey : M.keyOf m mapId' mapKey = k.eval m := by
        rw [Memory.keyOf, hk]
      rw [hkey]
      dsimp only at hrun
      split at hrun
      · rename_i harray
        obtain ⟨p, hp, hrun⟩ := bind_eq_ok.mp hrun
        cases hp
        cases hrun
        rw [eval_updateApplies, if_pos harray]
        rfl
      · rename_i harray
        obtain ⟨p, hp, hrun⟩ := bind_eq_ok.mp hrun
        cases hrun
        rw [eval_updateApplies, if_neg harray, hpresent k p hp]
  · rename_i hother
    cases hrun
    unfold Memory.takesEffect
    split
    · rename_i mapId' mapKey value flags size haction
      rw [haction] at hmap
      exact absurd haction (by
        obtain rfl : mapId' = some mapId := hmap
        exact hother mapId mapKey value flags size)
    · rfl

/-- An arm of the chain, whose guard is only completed if it is not false. -/
theorem eval_arm {s : Srt} {g : Guard} {applies : Except LowerError Guard} {v t t' : ZTerm s}
    (h : (if g = .ff then pure Guard.tt >>= fun a => pure ((g.and a).ite v t)
      else applies >>= fun a => pure ((g.and a).ite v t)) = Except.ok t') :
    g.eval m = false ∧ t'.eval m = t.eval m ∨
      ∃ a, applies = .ok a ∧ t'.eval m = if g.eval m && a.eval m then v.eval m else t.eval m := by
  split at h
  · rename_i hff
    obtain ⟨a, -, h⟩ := bind_eq_ok.mp h
    cases h
    left
    rw [hff]
    exact ⟨rfl, by rw [Guard.eval_ite, Guard.eval_and, Guard.eval_ff, Bool.false_and]; rfl⟩
  · obtain ⟨a, ha, h⟩ := bind_eq_ok.mp h
    cases h
    right
    exact ⟨a, ha, by rw [Guard.eval_ite, Guard.eval_and]⟩

/-- One update or delete, on the path or not, in the chain. -/
theorem eval_presenceArm {M : Memory maps} {present : (mapId : Nat) →
      ZTerm (.bv (keyBits maps mapId)) → Option Nat → Option Int → Except LowerError (ZTerm .bool)}
    {mapId : Nat} {key : ZTerm (.bv (keyBits maps mapId))} {P : PresentKeys maps} {e : Event} {v : Bool}
    {t t' : ZTerm .bool} (hmap : e.action.mapId = some mapId) (hv : e.action.presence = some v)
    (hpresent : (M.reachOf e.block).eval m = true → ∀ k t,
      present mapId k (some e.block) (some e.idx) = .ok t → t.eval m = P mapId (k.eval m))
    (ht : (M.reachOf e.block).eval m = true → t.eval m = P mapId (key.eval m))
    (hrun : (do
      let g := M.reachOf e.block
      let g ← match e.action.mapKey with
        | none => pure g
        | some k => do
            let k ← M.key mapId (some k)
            pure (g.and (.term (.cmp .eq k key)))
      let applies ← if g = .ff then pure .tt else M.appliesWith present e
      pure ((g.and applies).ite (.boolVal (e.action.presence = some true)) t)) = Except.ok t') :
    t'.eval m = if (M.reachOf e.block).eval m then M.presenceStep m P e mapId (key.eval m)
      else t.eval m := by
  obtain ⟨g, hg, harm⟩ : ∃ g : Guard, g.eval m = ((M.reachOf e.block).eval m &&
      e.action.mapKey.all fun x => M.keyOf m mapId (some x) = key.eval m) ∧
      (if g = .ff then pure Guard.tt >>= fun a =>
          pure ((g.and a).ite (.boolVal (e.action.presence = some true)) t)
        else M.appliesWith present e >>= fun a =>
          pure ((g.and a).ite (.boolVal (e.action.presence = some true)) t)) = Except.ok t' := by
    dsimp only at hrun
    cases hkey : e.action.mapKey with
    | none =>
        rw [hkey] at hrun
        exact ⟨M.reachOf e.block, by simp, hrun⟩
    | some x =>
        rw [hkey] at hrun
        obtain ⟨k, hk, hrun⟩ := bind_eq_ok.mp hrun
        refine ⟨(M.reachOf e.block).and (.term (.cmp .eq k key)), ?_, hrun⟩
        have hvalue : M.keyOf m mapId (some x) = k.eval m := by
          rw [Memory.keyOf, hk]
        rw [Guard.eval_and, Option.all_some, hvalue]
        rfl
  cases hreach : (M.reachOf e.block).eval m with
  | false =>
      rw [hreach, Bool.false_and] at hg
      rw [if_neg Bool.false_ne_true]
      rcases eval_arm harm with ⟨-, hkept⟩ | ⟨a, -, hvalue⟩
      · exact hkept
      · rw [hvalue, hg, Bool.false_and, if_neg Bool.false_ne_true]
  | true =>
      rw [hreach, Bool.true_and] at hg
      rw [if_pos rfl, Memory.presenceStep, hv]
      dsimp only
      rw [← ht hreach]
      rcases eval_arm harm with ⟨hfalse, hkept⟩ | ⟨a, ha, hvalue⟩
      · rw [hg] at hfalse
        rw [hkept, if_neg (by simp [hfalse])]
      · rw [hvalue, hg, eval_appliesWith hmap (hpresent hreach) ha]
        have hnew : (Term.boolVal (decide (e.action.presence = some true))).eval m = v := by
          rw [hv]
          cases v <;> rfl
        simp only [Bool.and_eq_true, hmap, true_and, hnew]

theorem presenceAfter_concat (M : Memory maps) (es : List Event) (e : Event) :
    M.presenceAfter m (es ++ [e]) = M.presenceStep m (M.presenceAfter m es) e := by
  rw [Memory.presenceAfter, List.foldl_append]
  rfl

theorem presenceStep_of_mapId {M : Memory maps} {P : PresentKeys maps} {e : Event} {mapId : Nat}
    (h : e.action.mapId ≠ some mapId) : M.presenceStep m P e mapId = P mapId := by
  funext k
  unfold Memory.presenceStep
  split
  · rfl
  · rw [if_neg fun hc => h hc.1]

/-- Whether a key is present at a point of the path: the updates and deletes on the path
before it decide, one after the other. -/
theorem Folds.present_eval (h : F.Folds w kept order) (fuel : Nat) {mapId b : Nat}
    {key : ZTerm (.bv (keyBits maps mapId))} {atIdx : Option Int} {t : ZTerm .bool}
    (hb : w.Reached m b)
    (hrun : (F.mem w lower).presentFuel fuel mapId key (some b) atIdx = .ok t) :
    t.eval m = (F.mem w lower).presenceAfter m (F.executed w m b atIdx) mapId (key.eval m) := by
  induction fuel generalizing mapId b key atIdx t with
  | zero => cases hrun
  | succ fuel ih =>
      have hall : (F.mem w lower).presenceWrites.filter
          (fun e => (w.reachAt e.block).eval m && e.before b atIdx) =
            (F.executed w m b atIdx).filter (·.action.presence.isSome) := by
        rw [executed, List.filter_filter, Memory.presenceWrites, List.filter_filter]
        apply List.filter_congr
        intro x _
        exact Bool.and_comm _ _
      have hsorted : (F.mem w lower).presenceWrites.Pairwise _ :=
        (pairwise_events h.listed).filter _
      rw [← presenceAfter_filter, ← hall]
      refine foldlM_split_ok (fun done p => p.eval m = (F.mem w lower).presenceAfter m
        (done.filter fun e => (w.reachAt e.block).eval m && e.before b atIdx) mapId (key.eval m))
        rfl ?_ hrun
      intro done e rest p p' hsplit hp hstep
      change (if (decide (e.action.mapId ≠ some mapId) || !(F.mem w lower).shown e b atIdx) = true
        then pure p else _) = _ at hstep
      rw [List.filter_append, List.filter_cons, List.filter_nil]
      have hreached : (w.reachAt e.block).eval m = true ↔ w.Reached m e.block :=
        reachAt_eval_iff h.run m e.block
      split at hstep
      · rename_i hskip
        cases hstep
        rw [hp]
        rw [Bool.or_eq_true, decide_eq_true_eq, Bool.not_eq_true'] at hskip
        rcases hskip with hother | hhidden
        · split
          · rw [presenceAfter_concat, presenceStep_of_mapId hother]
          · rw [List.append_nil]
        · rw [if_neg, List.append_nil]
          intro hmem
          obtain ⟨hreach, hbefore⟩ := Bool.and_eq_true_iff.mp hmem
          rw [h.shown_eq hb (hreached.mp hreach), hbefore] at hhidden
          cases hhidden
      · rename_i htaken
        rw [Bool.or_eq_true, not_or, decide_eq_true_eq, not_not, Bool.not_eq_true',
          Bool.not_eq_false] at htaken
        obtain ⟨hmap, hshown⟩ := htaken
        obtain ⟨v, hv⟩ : ∃ v, e.action.presence = some v := Option.isSome_iff_exists.mp
          (List.mem_filter.mp (hsplit ▸ by simp : e ∈ (F.mem w lower).presenceWrites)).2
        have hbefore : (w.reachAt e.block).eval m = true → e.before b atIdx = true := by
          intro hreach
          rw [← h.shown_eq hb (hreached.mp hreach)]
          exact hshown
        have harm := eval_presenceArm
          (P := (F.mem w lower).presenceAfter m (done.filter fun x => (w.reachAt x.block).eval m))
          hmap hv
          (fun hreach k t' ht' => by
            rw [ih (hreached.mp hreach) ht', presence_before h.listed _ hsplit])
          (fun hreach => by
            rw [hp, filter_executed hsorted hsplit (hbefore hreach)])
          hstep
        rw [harm]
        change (if (w.reachAt e.block).eval m = true then _ else _) = _
        by_cases hreach : (w.reachAt e.block).eval m = true
        · rw [if_pos hreach, if_pos (by rw [hreach, hbefore hreach, Bool.and_true]),
            presenceAfter_concat, filter_executed hsorted hsplit (hbefore hreach)]
        · rw [if_neg hreach, if_neg (by rw [Bool.not_eq_true] at hreach; rw [hreach]; simp),
            List.append_nil, hp]

end Presence

section Bytes

variable {M : Memory maps} {loc : Loc} {w : Action}

theorem offsetOf_fixed (hfixed : w.varOff = none) : M.offsetOf m w = w.off := by
  rw [Memory.offsetOf, hfixed]
  exact Int.add_zero _

/-- A write that reaches a location can touch it, as far as constants tell. -/
theorem mayAlias_of_reaches (htells : M.Tells m loc w) (h : M.reaches m loc w = true) :
    mayAlias loc w = true := by
  simp only [Memory.reaches, Bool.and_eq_true, decide_eq_true_eq] at h
  obtain ⟨⟨hregion, hobject⟩, hlow, hhigh⟩ := h
  unfold mayAlias
  rw [if_neg (not_not.mpr hregion), if_neg, if_neg, if_neg]
  · split
    · rfl
    · rename_i hvar
      rw [offsetOf_fixed (by simpa using hvar)] at hlow hhigh
      simp only [Bool.and_eq_true, decide_eq_true_eq]
      omega
  · intro hbss
    rw [Bool.and_eq_true, decide_eq_true_eq] at hbss
    obtain ⟨hloc, hkeys⟩ := hbss
    rw [Memory.sameObject, hloc] at hobject
    have hsame : w.bssKey = loc.bssKey := of_decide_eq_true hobject
    split at hkeys
    · rename_i a b ha hb
      rw [ha, hb] at hsame
      exact of_decide_eq_true hkeys (Option.some.inj hsame).symm
    · cases hkeys
  · intro hmap
    rw [Bool.and_eq_true, decide_eq_true_eq] at hmap
    obtain ⟨hloc, hkeys⟩ := hmap
    obtain ⟨mapId, hmapId⟩ := Option.isSome_iff_exists.mp
      (htells.keyed hloc (hregion.trans (congrArg some hloc))).1
    rw [Memory.sameObject, hloc] at hobject
    dsimp only at hobject
    rw [hmapId, Option.all_some, Bool.and_eq_true, decide_eq_true_eq, decide_eq_true_eq] at hobject
    split at hkeys
    · rename_i a b ha hb
      exact of_decide_eq_true hkeys ((htells.constants a b mapId ha hb hmapId).mpr hobject.2)
    · cases hkeys
  · intro hmap
    rw [Bool.and_eq_true, decide_eq_true_eq, decide_eq_true_eq] at hmap
    obtain ⟨hloc, hother⟩ := hmap
    rw [Memory.sameObject, hloc] at hobject
    dsimp only at hobject
    rw [Bool.and_eq_true, decide_eq_true_eq] at hobject
    exact hother hobject.1.symm

theorem reaches_of_mayAlias (htells : M.Tells m loc w) (h : mayAlias loc w = true) :
    M.reaches m loc w =
      (M.sameObject m loc w && (w.off ≤ loc.off && loc.off < w.off + max w.size 1)) := by
  rw [Memory.reaches, decide_eq_true (region_of_mayAlias h).1, Bool.true_and,
    offsetOf_fixed (htells.fixed h)]

theorem extractLsb'_ofNat {x n s l : Nat} (h : s + l ≤ n) :
    (BitVec.ofNat n x).extractLsb' s l = BitVec.ofNat l (x / 2 ^ s) := by
  apply BitVec.eq_of_getLsbD_eq
  intro i hi
  have hin : s + i < n := by omega
  rw [BitVec.getLsbD_extractLsb', BitVec.getLsbD_ofNat, BitVec.getLsbD_ofNat,
    Nat.testBit_div_two_pow, decide_eq_true hin, Nat.add_comm s i, Bool.true_and]

theorem valueOf_ok {e : Option Expr} {v : ZBv} (h : M.lowerSome e = .ok v) :
    M.valueOf m e = v.toNat m := by
  rw [Memory.valueOf, h]

theorem eval_writtenByte {v : ZTerm (.bv 8)} (h : M.writtenByte w loc.off = .ok (some v)) :
    (w.off ≤ loc.off ∧ loc.off < w.off + max w.size 1) ∧ v.eval m = M.leftByte m w loc.off := by
  unfold Memory.writtenByte at h
  split at h
  · cases h
  rename_i hin
  simp only [Bool.or_eq_true, Bool.not_eq_true', Bool.and_eq_false_iff, decide_eq_false_iff_not,
    not_or, not_not, Option.isSome_iff_ne_none, ne_eq] at hin
  obtain ⟨hfixed, hlow, hhigh⟩ := hin
  refine ⟨⟨hlow, hhigh⟩, ?_⟩
  obtain ⟨x, hx, h⟩ := bind_eq_ok.mp h
  have hend : (loc.off - w.off).toNat * 8 + 8 ≤ max w.size 1 * 8 := by omega
  suffices hstored : ∃ val : ZTerm (.bv (max w.size 1 * 8)),
      v = .extract ((loc.off - w.off).toNat * 8) 8 val ∧ val.eval m = BitVec.ofNat _ (M.stored m w) by
    obtain ⟨val, rfl, hval⟩ := hstored
    rw [Term.eval_extract, hval, extractLsb'_ofNat hend, Memory.leftByte, offsetOf_fixed hfixed,
      Nat.mul_comm]
  dsimp only at h
  split at h
  · rename_i hold
    cases h
    refine ⟨_, rfl, ?_⟩
    rw [eval_resize, Memory.stored, hold, valueOf_ok hx]
    exact congrArg _ (Nat.zero_add _).symm
  · rename_i old hold
    obtain ⟨o, ho, h⟩ := bind_eq_ok.mp h
    cases h
    refine ⟨_, rfl, ?_⟩
    have hread : M.valueOf m (some old) = o.toNat m := valueOf_ok ho
    rw [Memory.stored, hold, valueOf_ok hx, Option.map_some, Option.getD_some, hread,
      BitVec.ofNat_add]
    exact congrArg₂ (· + ·) (eval_resize m o _) (eval_resize m x _)

theorem writtenByte_none (hfixed : w.varOff = none) (h : M.writtenByte w loc.off = .ok none) :
    ¬(w.off ≤ loc.off ∧ loc.off < w.off + max w.size 1) := by
  rintro ⟨hlow, hhigh⟩
  unfold Memory.writtenByte at h
  have hin : ¬(w.varOff.isSome || !(decide (w.off ≤ loc.off) &&
      decide (loc.off < w.off + (max w.size 1 : Nat)))) = true := by
    rw [hfixed, decide_eq_true hlow, decide_eq_true hhigh]
    exact Bool.false_ne_true
  rw [if_neg hin] at h
  obtain ⟨x, -, h⟩ := bind_eq_ok.mp h
  dsimp only at h
  split at h
  · cases h
  · obtain ⟨o, -, h⟩ := bind_eq_ok.mp h
    cases h

theorem eval_applies {present : (mapId : Nat) → ZTerm (.bv (keyBits maps mapId)) → Option Nat →
      Option Int → Except LowerError (ZTerm .bool)} {before : PresentKeys maps} {e : Event} {g : Guard}
    (hpresent : ∀ mapId, e.action.mapId = some mapId → ∀ k t,
      present mapId k (some e.block) (some e.idx) = .ok t → t.eval m = before mapId (k.eval m))
    (hrun : M.appliesWith present e = .ok g) : g.eval m = M.effective m before e := by
  cases hmap : e.action.mapId with
  | some mapId =>
      rw [eval_appliesWith hmap (hpresent mapId hmap) hrun, Memory.effective, hmap, Option.all_some]
  | none =>
      rw [Memory.effective, hmap, Option.all_none]
      unfold Memory.appliesWith at hrun
      split at hrun
      · rename_i haction
        rw [haction] at hmap
        cases hmap
      · cases hrun
        rfl

/-- The guard of a write, completed with the comparison of the keys. -/
def keyGuard (M : Memory maps) (loc : Loc) (w : Action) (g : Guard) : Except LowerError Guard :=
  match loc.mapId with
  | some mapId =>
      if loc.region ≠ .MAP || g = .ff then pure g
      else if (loc.mapKey.bind Expr.num?).isSome && (w.mapKey.bind Expr.num?).isSome then pure g
      else if loc.mapKey.isNone || w.mapKey.isNone then pure g
      else if Expr.sameOpt loc.mapKey w.mapKey then pure g
      else do
        let a ← M.key mapId loc.mapKey
        let b ← M.key mapId w.mapKey
        pure (g.and (.term (.cmp .eq a b)))
  | none => pure g

theorem writeGuard_ok {fuel : Nat} {e : Event} {g : Guard} (h : M.writeGuard fuel loc e = .ok g) :
    ∃ applies, keyGuard M loc e.action ((M.reachOf e.block).and applies) = .ok g ∧
      (M.reachOf e.block = .ff ∨ M.appliesWith (M.presentFuel fuel) e = .ok applies) := by
  unfold Memory.writeGuard at h
  dsimp only at h
  rcases ite_eq_ok h with ⟨hff, h⟩ | ⟨-, h⟩
  · obtain ⟨applies, -, h⟩ := bind_eq_ok.mp h
    exact ⟨applies, h, .inl hff⟩
  · obtain ⟨applies, happlies, h⟩ := bind_eq_ok.mp h
    exact ⟨applies, h, .inr happlies⟩

theorem keyOf_ok {mapId : Nat} {x : Option Expr} {k : ZTerm (.bv (keyBits maps mapId))}
    (h : M.key mapId x = .ok k) : M.keyOf m mapId x = k.eval m := by
  rw [Memory.keyOf, h]

/-- Constant keys are compared before. -/
theorem constants_of_mayAlias (h : mayAlias loc w = true) (hloc : loc.region = .MAP) {a b : Int}
    (ha : loc.mapKey.bind Expr.num? = some a) (hb : w.mapKey.bind Expr.num? = some b) : a = b := by
  obtain ⟨hregion, hmap, -⟩ := region_of_mayAlias h
  by_contra hne
  unfold mayAlias at h
  rw [if_neg (not_not.mpr hregion), if_neg (by simp [hmap hloc]), if_pos] at h
  · cases h
  · rw [ha, hb, hloc]
    exact decide_eq_true hne

/-- Of two keys, constants and equal expressions need no comparison. -/
theorem eval_keyGuard {g g' : Guard} (htells : M.Tells m loc w) (halias : mayAlias loc w = true)
    (h : keyGuard M loc w g = .ok g') : g'.eval m = (g.eval m && M.sameObject m loc w) := by
  obtain ⟨hregion, hmap, hbss⟩ := region_of_mayAlias halias
  have hother : loc.region ≠ .MAP → M.sameObject m loc w = true := by
    intro hloc
    unfold Memory.sameObject
    split
    · rename_i heq
      exact absurd heq hloc
    · rename_i heq
      obtain ⟨ha, hb⟩ := htells.named heq (hregion.trans (congrArg some heq))
      obtain ⟨a, ha⟩ := Option.isSome_iff_exists.mp ha
      obtain ⟨b, hb⟩ := Option.isSome_iff_exists.mp hb
      rw [ha, hb, hbss heq a b ha hb]
      exact decide_eq_true rfl
    · rfl
  have hkept : M.sameObject m loc w = true → g.eval m = (g.eval m && M.sameObject m loc w) := by
    intro hsame
    rw [hsame, Bool.and_true]
  by_cases hloc : loc.region = .MAP
  · obtain ⟨hid, hkey, hkey'⟩ := htells.keyed hloc (hregion.trans (congrArg some hloc))
    obtain ⟨mapId, hid⟩ := Option.isSome_iff_exists.mp hid
    have hobject : M.sameObject m loc w =
        decide (M.keyOf m mapId loc.mapKey = M.keyOf m mapId w.mapKey) := by
      rw [Memory.sameObject, hloc]
      dsimp only
      rw [hid, Option.all_some, decide_eq_true ((hmap hloc).symm.trans hid), Bool.true_and]
    unfold keyGuard at h
    rw [hid] at h
    dsimp only at h
    rcases ite_eq_ok h with ⟨hff, h⟩ | ⟨-, h⟩
    · cases h
      have hg : g = .ff := by simpa [hloc] using hff
      rw [hg, Guard.eval_ff, Bool.false_and]
    rcases ite_eq_ok h with ⟨hconst, h⟩ | ⟨-, h⟩
    · cases h
      rw [Bool.and_eq_true] at hconst
      obtain ⟨a, ha⟩ := Option.isSome_iff_exists.mp hconst.1
      obtain ⟨b, hb⟩ := Option.isSome_iff_exists.mp hconst.2
      apply hkept
      rw [hobject, decide_eq_true_eq]
      exact (htells.constants a b mapId ha hb hid).mp (constants_of_mayAlias halias hloc ha hb)
    rcases ite_eq_ok h with ⟨hnone, h⟩ | ⟨-, h⟩
    · rw [Bool.or_eq_true] at hnone
      simp [Option.isNone_iff_eq_none, Option.isSome_iff_ne_none] at hnone hkey hkey'
      tauto
    rcases ite_eq_ok h with ⟨hsame, h⟩ | ⟨-, h⟩
    · cases h
      apply hkept
      rw [hobject, decide_eq_true_eq]
      exact htells.same mapId hsame hid
    obtain ⟨a, ha, h⟩ := bind_eq_ok.mp h
    obtain ⟨b, hb, h⟩ := bind_eq_ok.mp h
    cases h
    rw [Guard.eval_and, hobject, keyOf_ok ha, keyOf_ok hb]
    rfl
  · rw [hother hloc, Bool.and_true]
    unfold keyGuard at h
    split at h
    · rw [if_pos (by simp [hloc])] at h
      cases h
      rfl
    · cases h
      rfl

theorem keyGuard_false {g g' : Guard} (h : keyGuard M loc w g = .ok g') (hg : g.eval m = false) :
    g'.eval m = false := by
  unfold keyGuard at h
  split at h
  · rcases ite_eq_ok h with ⟨-, h⟩ | ⟨-, h⟩
    · cases h
      exact hg
    rcases ite_eq_ok h with ⟨-, h⟩ | ⟨-, h⟩
    · cases h
      exact hg
    rcases ite_eq_ok h with ⟨-, h⟩ | ⟨-, h⟩
    · cases h
      exact hg
    rcases ite_eq_ok h with ⟨-, h⟩ | ⟨-, h⟩
    · cases h
      exact hg
    obtain ⟨a, -, h⟩ := bind_eq_ok.mp h
    obtain ⟨b, -, h⟩ := bind_eq_ok.mp h
    cases h
    rw [Guard.eval_and, hg, Bool.false_and]
  · cases h
    exact hg

/-- A write of a block that is not reached has a false guard. -/
theorem writeGuard_false {fuel : Nat} {e : Event} {g : Guard}
    (hreach : (M.reachOf e.block).eval m = false) (h : M.writeGuard fuel loc e = .ok g) :
    g.eval m = false := by
  obtain ⟨applies, hkey, -⟩ := writeGuard_ok h
  exact keyGuard_false hkey (by rw [Guard.eval_and, hreach, Bool.false_and])

/-- When the guard of a write that may touch a location is true. -/
theorem eval_writeGuard {fuel : Nat} {before : PresentKeys maps} {e : Event} {g : Guard}
    (htells : M.Tells m loc e.action) (halias : mayAlias loc e.action = true)
    (hreach : (M.reachOf e.block).eval m = true)
    (hpresent : ∀ mapId, e.action.mapId = some mapId → ∀ k t,
      M.presentFuel fuel mapId k (some e.block) (some e.idx) = .ok t →
        t.eval m = before mapId (k.eval m))
    (hrun : M.writeGuard fuel loc e = .ok g) :
    g.eval m = (M.effective m before e && M.sameObject m loc e.action) := by
  obtain ⟨applies, hkey, happlies⟩ := writeGuard_ok hrun
  rw [eval_keyGuard htells halias hkey, Guard.eval_and, hreach, Bool.true_and]
  rcases happlies with hff | happlies
  · rw [hff] at hreach
    cases hreach
  · rw [eval_applies hpresent happlies]

/-- The presence in an execution depends on the presence only. -/
theorem execute_present (M : Memory maps) (es : List Event) :
    (M.execute m es).present = M.presenceAfter m es := by
  unfold Memory.execute Memory.presenceAfter
  suffices h : ∀ s : Machine maps, (es.foldl (M.step m) s).present =
      es.foldl (M.presenceStep m) s.present from h (M.start m)
  induction es with
  | nil => exact fun _ => rfl
  | cons e es ih => exact fun s => ih (M.step m s e)

theorem execute_concat (M : Memory maps) (es : List Event) (e : Event) :
    M.execute m (es ++ [e]) = M.step m (M.execute m es) e := by
  rw [Memory.execute, List.foldl_append]
  rfl

end Bytes

section Execution

variable {F : ForwardContext maps} {w : Walk maps} {kept order : List Nat} {b : Nat}
  {lower : Expr → Except LowerError ZBv}

/-- What an event leaves at a location when a model executes it. -/
def leavesAt (F : ForwardContext maps) (w : Walk maps) (m : ZModel)
    (lower : Expr → Except LowerError ZBv) (loc : Loc) (e : Event) : Option (BitVec 8) :=
  (F.mem w lower).leaves m
    ((F.mem w lower).presenceAfter m (F.executed w m e.block (some e.idx))) loc e

/-- What was executed before an event that is executed. -/
theorem executed_before {b : Nat} {atIdx : Option Int} {e : Event} (hbefore : e.before b atIdx = true) :
    (F.executed w m b atIdx).filter (·.before e.block (some e.idx)) =
      F.executed w m e.block (some e.idx) := by
  rw [executed, executed, List.filter_filter]
  apply List.filter_congr
  intro x _
  cases hx : x.before e.block (some e.idx) with
  | false => rw [Bool.false_and, Bool.and_false]
  | true => rw [before_trans hx hbefore, Bool.true_and]

/-- A byte holds what the events that were executed have left there. -/
theorem execute_byte (h : Listed F.blocks) (loc : Loc) (b : Nat) (atIdx : Option Int) :
    ((F.mem w lower).execute m (F.executed w m b atIdx)).byte loc =
      overwrite (F.leavesAt w m lower loc) (((F.mem w lower).start m).byte loc)
        (F.executed w m b atIdx) := by
  have hsorted : (F.executed w m b atIdx).Pairwise _ := (pairwise_events h).filter _
  suffices hall : ∀ done rest, F.executed w m b atIdx = done ++ rest →
      ((F.mem w lower).execute m done).byte loc = overwrite (F.leavesAt w m lower loc)
        (((F.mem w lower).start m).byte loc) done from hall _ [] (List.append_nil _).symm
  intro done
  induction done using List.reverseRecOn with
  | nil => exact fun _ _ => rfl
  | append_singleton done e ih =>
      intro rest hsplit
      have hsplit' : F.executed w m b atIdx = done ++ e :: rest := by simpa using hsplit
      have hbefore : e.before b atIdx = true := by
        have hmem : e ∈ F.executed w m b atIdx := by simp [hsplit]
        exact (Bool.and_eq_true_iff.mp (List.mem_filter.mp hmem).2).2
      have hdone : F.executed w m e.block (some e.idx) = done := by
        rw [← executed_before hbefore, filter_before hsorted hsplit']
      rw [execute_concat, overwrite_append, ← ih (e :: rest) hsplit', overwrite_cons, overwrite_nil]
      change (Memory.leaves _ m _ loc e).getD _ = _
      rw [execute_present, leavesAt, hdone]

/-- A write that is executed, in the chain of a byte. -/
theorem Folds.eval_written (h : F.Folds w kept order) {fuel : Nat} {loc : Loc} {e : Event}
    (hreach : w.Reached m e.block) (htells : (F.mem w lower).Tells m loc e.action)
    (halias : mayAlias loc e.action = true) {v t : ZTerm (.bv 8)} {g : Guard}
    (hv : (F.mem w lower).writtenByte e.action loc.off = .ok (some v))
    (hg : (F.mem w lower).writeGuard fuel loc e = .ok g) :
    (g.ite v t).eval m = (F.leavesAt w m lower loc e).getD (t.eval m) := by
  obtain ⟨⟨hlow, hhigh⟩, hvalue⟩ := eval_writtenByte (m := m) hv
  have hguard := eval_writeGuard htells halias ((reachAt_eval_iff h.run m e.block).mpr hreach)
    (fun mapId _ k p hp => h.present_eval fuel hreach hp) hg
  rw [Guard.eval_ite, hguard, hvalue, leavesAt, Memory.leaves, reaches_of_mayAlias htells halias,
    decide_eq_true hlow, decide_eq_true hhigh, Bool.and_self, Bool.and_true, Bool.and_comm]
  split <;> rfl

theorem start_byte {M : Memory maps} {loc : Loc} {t : ZTerm (.bv 8)}
    (h : M.initialAt loc = .ok (some t)) : (M.start m).byte loc = t.eval m := by
  simp only [Memory.start, h]

/-- An event that a model executes before a point. -/
def onPath (w : Walk maps) (m : ZModel) (b : Nat) (atIdx : Option Int) (e : Event) : Bool :=
  (w.reachAt e.block).eval m && e.before b atIdx

/-- What the events that are no writes leave, and those off the path. -/
theorem overwrite_writes (loc : Loc) (b : Nat) (atIdx : Option Int) (v : BitVec 8) :
    overwrite (fun e => if onPath w m b atIdx e then F.leavesAt w m lower loc e else none) v
        (F.mem w lower).writes =
      overwrite (F.leavesAt w m lower loc) v (F.executed w m b atIdx) := by
  have hsame : (F.mem w lower).writes.filter (onPath w m b atIdx) =
      (F.executed w m b atIdx).filter (·.action.region.isSome) := by
    rw [executed, Memory.writes, List.filter_filter, List.filter_filter]
    apply List.filter_congr
    intro e _
    exact Bool.and_comm _ _
  rw [← overwrite_filter (onPath w m b atIdx), hsame,
    overwrite_congr (f := F.leavesAt w m lower loc), overwrite_filter]
  · intro e _ hregion
    have hreaches : (F.mem w lower).reaches m loc e.action = false := by
      rw [Option.isSome_eq_false_iff, Option.isNone_iff_eq_none] at hregion
      rw [Memory.reaches, hregion]
      rfl
    rw [leavesAt, Memory.leaves, hreaches, Bool.false_and]
    rfl
  · intro e he
    have hin : onPath w m b atIdx e = true :=
      (List.mem_filter.mp (List.mem_filter.mp he).1).2
    rw [if_pos hin]
  · intro e _ hout
    rw [hout]
    rfl

/-- A byte at a point of the path, found in the list of all writes. -/
theorem Folds.byteAfter_eval (h : F.Folds w kept order) (fuel : Nat) {loc : Loc} {b : Nat}
    {atIdx : Option Int} {t : ZTerm (.bv 8)} (hb : w.Reached m b)
    (htells : ∀ e ∈ F.executed w m b atIdx, (F.mem w lower).Tells m loc e.action)
    (hrun : (F.mem w lower).byteAfter fuel loc (fun e => (F.mem w lower).shown e b atIdx) =
      .ok (some t)) :
    t.eval m = ((F.mem w lower).execute m (F.executed w m b atIdx)).byte loc := by
  obtain ⟨found, hinitial, hrun⟩ := bind_eq_ok.mp hrun
  cases found with
  | none => cases hrun
  | some initial =>
      obtain ⟨t', hfold, hrun⟩ := bind_eq_ok.mp hrun
      cases hrun
      rw [execute_byte h.listed, start_byte hinitial, ← overwrite_writes]
      refine read_foldlM (f := (·.eval m)) ?_ hfold
      intro e he t t' hstep
      have hreached := reachAt_eval_iff h.run m e.block
      have hnothing : ∀ {x : ZTerm (.bv 8)}, (F.mem w lower).reaches m loc e.action = false →
          x.eval m = (F.leavesAt w m lower loc e).getD (x.eval m) := by
        intro x hx
        rw [leavesAt, Memory.leaves, hx, Bool.false_and]
        rfl
      split
      · rename_i hin
        obtain ⟨hreach, hbefore⟩ := Bool.and_eq_true_iff.mp hin
        have htold := htells e (List.mem_filter.mpr ⟨(List.mem_filter.mp he).1, hin⟩)
        have hshown : (F.mem w lower).shown e b atIdx = true := by
          rw [h.shown_eq hb (hreached.mp hreach), hbefore]
        rcases ite_eq_ok hstep with ⟨hskip, hstep⟩ | ⟨htaken, hstep⟩
        · cases hstep
          have hother : mayAlias loc e.action = false := by simpa [hshown] using hskip
          apply hnothing
          rw [← Bool.not_eq_true]
          intro hreaches
          rw [mayAlias_of_reaches htold hreaches] at hother
          cases hother
        · have halias : mayAlias loc e.action = true := by simpa [hshown] using htaken
          obtain ⟨left, hleft, hstep⟩ := bind_eq_ok.mp hstep
          cases left with
          | none =>
              cases hstep
              apply hnothing
              have hout := writtenByte_none (htold.fixed halias) hleft
              rw [reaches_of_mayAlias htold halias, Bool.and_eq_false_iff]
              right
              simpa [Bool.and_eq_false_iff] using hout
          | some v =>
              obtain ⟨g, hg, hstep⟩ := bind_eq_ok.mp hstep
              cases hstep
              exact h.eval_written (hreached.mp hreach) htold halias hleft hg
      · rename_i hout
        rw [Option.getD_none]
        rcases ite_eq_ok hstep with ⟨-, hstep⟩ | ⟨htaken, hstep⟩
        · cases hstep
          rfl
        · obtain ⟨left, hleft, hstep⟩ := bind_eq_ok.mp hstep
          cases left with
          | none =>
              cases hstep
              rfl
          | some v =>
              obtain ⟨g, hg, hstep⟩ := bind_eq_ok.mp hstep
              cases hstep
              have hfalse : (w.reachAt e.block).eval m = false := by
                rw [← Bool.not_eq_true]
                intro hreach
                have hshown : (F.mem w lower).shown e b atIdx = true := by
                  simp only [Bool.or_eq_true, Bool.not_eq_true', not_or, Bool.not_eq_false] at htaken
                  exact htaken.1
                rw [h.shown_eq hb (hreached.mp hreach)] at hshown
                exact hout (Bool.and_eq_true_iff.mpr ⟨hreach, hshown⟩)
              rw [Guard.eval_ite, writeGuard_false hfalse hg, if_neg Bool.false_ne_true]

end Execution

section Results

variable {F : ForwardContext maps} {w : Walk maps} {instrs : List Instr} {progs : List ProgRegion}
  {cfg : List Block} {P : Program} {t : Tracker} {targets : Option (List Nat)} {order : List Nat}

/-- The actions on the path of a model before a point. -/
def pathBefore (F : ForwardContext maps) (w : Walk maps) (m : ZModel) (b : Nat)
    (atIdx : Option Int) : List Event :=
  ((F.path w m).flatMap F.actionsOf).filter (·.before b atIdx)

end Results

end ForwardContext

/-! ### Examples -/

/-- `p = ctx->data; if (ctx->rx_queue_index != 0) p[0] = 7; return p[0]` -/
def markByte : Program :=
  { instrs := [
      { exitInstr with opcodeClass := .LDX, opcodeMode := .MEM, srcReg := 1, dstReg := 4 },
      { exitInstr with opcodeClass := .LDX, opcodeMode := .MEM, srcReg := 1, dstReg := 2, offset := 16 },
      { exitInstr with jmpCode := .JEQ, dstReg := 2, offset := 1 },
      { exitInstr with opcodeClass := .ST, opcodeMode := .MEM, opcodeSz := .B, dstReg := 4, imm := 7 },
      { exitInstr with opcodeClass := .LDX, opcodeMode := .MEM, opcodeSz := .B, srcReg := 4 },
      exitInstr]
    maps := [], progs := [], rodata := [] }

/-- A context that folds all regions. -/
def foldContext (P : Program) (order : List Nat) : ForwardContext P.maps :=
  { blocks := trackedOf P, initSt := makeInitState P.maps, relevant := fun _ => true
    fold := fun _ => true, anc := ancestors (trackedOf P) order, prunePaths := true
    simplifier := groundSimplifier, identity := .equal, fuel := 2 }

/-- The memory that its conditions are asked of. -/
def foldedMem (P : Program) (order : List Nat) (w : Walk P.maps) : Memory P.maps :=
  (foldContext P order).mem w (exprToZ3 ((foldContext P order).hooked w) none (makeInitState P.maps))

end Hornet
