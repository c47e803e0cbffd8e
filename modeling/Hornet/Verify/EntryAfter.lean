import Hornet.Track.LookupHit
import Hornet.Verify.Encoded
import Hornet.Verify.LastWrite
import Hornet.Verify.Limit
import Hornet.Verify.MapAfter

/-!
The entry that an update leaves, as it is asked for afterwards: in the list of all writes where
the map is folded, and in the arrays of the state where it is not.
-/

namespace Hornet

open Smt Lib

variable {maps : List MapInfo} {m : ZModel}

/-! ## The last write -/

namespace ForwardContext

section Last

variable {M : Memory maps} {loc : Loc} {e : Event} {fuel : Nat}

/-- The byte that a write leaves is read if no other write behind it takes effect. -/
theorem byteAfter_last {shown : Event → Bool} {done rest : List Event} {t : ZTerm (.bv 8)}
    (hsplit : M.writes = done ++ e :: rest) (hshown : shown e = true)
    (halias : mayAlias loc e.action = true) (hfixed : e.action.varOff = none)
    (hoff : e.action.off ≤ loc.off ∧ loc.off < e.action.off + max e.action.size 1)
    (hguard : ∀ g, M.writeGuard fuel loc e = .ok g → g.eval m = true)
    (hrest : ∀ e' ∈ rest, shown e' = true → mayAlias loc e'.action = true →
      (M.reachOf e'.block).eval m = false)
    (hrun : M.byteAfter fuel loc shown = .ok (some t)) :
    t.eval m = M.leftByte m e.action loc.off := by
  obtain ⟨found, -, hrun⟩ := bind_eq_ok.mp hrun
  cases found with
  | none => cases hrun
  | some initial =>
      obtain ⟨t', hfold, hrun⟩ := bind_eq_ok.mp hrun
      cases hrun
      rw [hsplit] at hfold
      refine foldlM_last (f := (·.eval m)) (fun t t' hstep => ?_) (fun e' he' t t' hstep => ?_) hfold
      · rw [hshown, halias, Bool.not_true, Bool.or_false, if_neg Bool.false_ne_true] at hstep
        obtain ⟨left, hleft, hstep⟩ := bind_eq_ok.mp hstep
        cases left with
        | none => exact absurd hoff (writtenByte_none hfixed hleft)
        | some v =>
            obtain ⟨g, hg, hstep⟩ := bind_eq_ok.mp hstep
            cases hstep
            rw [Guard.eval_ite, hguard g hg, if_pos rfl, (eval_writtenByte hleft).2]
      · rcases ite_eq_ok hstep with ⟨-, hstep⟩ | ⟨htaken, hstep⟩
        · cases hstep
          rfl
        · simp only [Bool.or_eq_true, Bool.not_eq_true', not_or, Bool.not_eq_false] at htaken
          obtain ⟨left, hleft, hstep⟩ := bind_eq_ok.mp hstep
          cases left with
          | none =>
              cases hstep
              rfl
          | some v =>
              obtain ⟨g, hg, hstep⟩ := bind_eq_ok.mp hstep
              cases hstep
              have hunreached := hrest e' he' htaken.1 htaken.2
              rw [Guard.eval_ite, writeGuard_false hunreached hg, if_neg Bool.false_ne_true]

/-- The guard of an update of the entry with `BPF_ANY` is the reach condition of its block. -/
theorem update_guard {mapId : Nat} {key value : Expr} {size : Nat} {n : BitVec (keyBits maps mapId)}
    (haction : e.action = .mapUpdate (some mapId) (some key) (some value) (some 0) size)
    (hreach : (M.reachOf e.block).eval m = true) (hmap : loc.mapId = some mapId)
    (hlocKey : ∀ k, M.key mapId loc.mapKey = .ok k → k.eval m = n)
    (hkey : ∀ k, M.key mapId (some key) = .ok k → k.eval m = n) {g : Guard}
    (hg : M.writeGuard fuel loc e = .ok g) : g.eval m = true := by
  obtain ⟨applies, hguard, happlies⟩ := writeGuard_ok hg
  have hfree : applies.eval m = true := by
    rcases happlies with hff | happlies
    · rw [hff] at hreach
      cases hreach
    · unfold Memory.appliesWith at happlies
      rw [haction] at happlies
      cases happlies
      rfl
  have htrue : ((M.reachOf e.block).and applies).eval m = true := by
    rw [Guard.eval_and, hreach, hfree, Bool.and_self]
  unfold keyGuard at hguard
  rw [hmap, haction] at hguard
  dsimp only at hguard
  rcases ite_eq_ok hguard with ⟨-, h⟩ | ⟨-, h⟩
  · cases h
    exact htrue
  rcases ite_eq_ok h with ⟨-, h⟩ | ⟨-, h⟩
  · cases h
    exact htrue
  rcases ite_eq_ok h with ⟨-, h⟩ | ⟨-, h⟩
  · cases h
    exact htrue
  rcases ite_eq_ok h with ⟨-, h⟩ | ⟨-, h⟩
  · cases h
    exact htrue
  obtain ⟨a, ha, h⟩ := bind_eq_ok.mp h
  obtain ⟨b, hb, h⟩ := bind_eq_ok.mp h
  cases h
  have hsame : (Term.cmp .eq a b).eval m = decide (a.eval m = b.eval m) := rfl
  rw [Guard.eval_and, htrue, Bool.true_and]
  show (Term.cmp .eq a b).eval m = true
  rw [hsame, hlocKey a ha, hkey b hb, decide_eq_true rfl]

/-- A key is present that an update has made so, if no other write to the map behind it takes
effect. -/
theorem presentFuel_last {mapId b : Nat} {i : Option Int} {key value : Expr} {size : Nat}
    {asked : ZTerm (.bv (keyBits maps mapId))} {done rest : List Event} {p : ZTerm .bool}
    (hsplit : M.presenceWrites = done ++ e :: rest)
    (haction : e.action = .mapUpdate (some mapId) (some key) (some value) (some 0) size)
    (hshown : M.shown e b i = true) (hreach : (M.reachOf e.block).eval m = true)
    (hkey : ∀ k, M.key mapId (some key) = .ok k → k.eval m = asked.eval m)
    (hrest : ∀ e' ∈ rest, e'.action.mapId = some mapId → M.shown e' b i = true →
      (M.reachOf e'.block).eval m = false)
    (hrun : M.presentFuel fuel mapId asked (some b) i = .ok p) : p.eval m = true := by
  cases fuel with
  | zero => cases hrun
  | succ fuel =>
      unfold Memory.presentFuel at hrun
      dsimp only at hrun
      rw [hsplit] at hrun
      refine foldlM_last (f := (·.eval m)) (fun t t' hstep => ?_) (fun e' he' t t' hstep => ?_) hrun
      · change (if (decide (e.action.mapId ≠ some mapId) || !M.shown e b i) = true
          then pure t else _) = _ at hstep
        rw [hshown, haction, if_neg (by simp [Action.mapId])] at hstep
        obtain ⟨k, hk, hstep⟩ := bind_eq_ok.mp hstep
        obtain ⟨g, hg, hstep⟩ := bind_eq_ok.mp hstep
        cases hg
        have htrue : ((M.reachOf e.block).and (.term (.cmp .eq k asked))).eval m = true := by
          have hsame : (Guard.term (.cmp .eq k asked)).eval m = decide (k.eval m = asked.eval m) := rfl
          rw [Guard.eval_and, hreach, hsame, hkey k hk, decide_eq_true rfl, Bool.and_self]
        rcases eval_arm hstep with ⟨hfalse, -⟩ | ⟨a, ha, hvalue⟩
        · rw [htrue] at hfalse
          cases hfalse
        · unfold Memory.appliesWith at ha
          rw [haction] at ha
          cases ha
          rw [hvalue, htrue]
          rfl
      · change (if (decide (e'.action.mapId ≠ some mapId) || !M.shown e' b i) = true
          then pure t else _) = _ at hstep
        rcases ite_eq_ok hstep with ⟨-, hstep⟩ | ⟨htaken, hstep⟩
        · cases hstep
          rfl
        · simp only [Bool.or_eq_true, decide_eq_true_eq, not_or, not_not, Bool.not_eq_true',
            Bool.not_eq_false] at htaken
          obtain ⟨v, hv⟩ := Option.isSome_iff_exists.mp
            (List.mem_filter.mp (hsplit ▸ by simp [he'] : e' ∈ M.presenceWrites)).2
          have hunreached := hrest e' he' htaken.1 htaken.2
          have hnever : ¬(M.reachOf e'.block).eval m = true := by
            rw [hunreached]
            exact Bool.false_ne_true
          rw [eval_presenceArm (P := fun _ _ => false) htaken.1 hv (fun h => absurd h hnever)
            (fun h => absurd h hnever) hstep, if_neg hnever]

end Last

/-! ## Folded maps -/

section Folded

variable {F : ForwardContext maps} {w : Walk maps} {kept order : List Nat} {mapId b size : Nat}
  {e : Event} {key value : Expr} {lower : Expr → Except LowerError ZBv}

theorem LastBefore.reaches (h : F.LastBefore w m mapId e b) : w.Reached m b := by
  rcases Relation.ReflTransGen.cases_tail h.path with hsame | ⟨c, -, hcb⟩
  · exact hsame ▸ h.reached
  · exact hcb.2.2

/-- The write may have run before the end of the block. -/
theorem Walked.ran_last (h : F.Walked w kept order) (hlast : F.LastBefore w m mapId e b) :
    (F.mem w lower).ranBefore e b = true := by
  have hancestor : (F.mem w lower).ancestorOrSelf e.block b = true := by
    rw [h.ancestorOrSelf_iff (h.visited hlast.reaches)]
    by_cases hsame : e.block = b
    · exact .inl hsame
    · exact .inr (h.trans hlast.path hsame)
  have hreach : w.reachAt e.block ≠ .ff := by
    intro hff
    have htrue := (reachAt_eval_iff h.run m e.block).mpr hlast.reached
    rw [hff] at htrue
    cases htrue
  unfold Memory.ranBefore
  rw [hancestor]
  exact decide_eq_true hreach

/-- The blocks of the writes to a map that a model executes before `e` have no larger numbers. -/
def Ordered (F : ForwardContext maps) (w : Walk maps) (m : ZModel) (mapId : Nat) (e : Event) : Prop :=
  ∀ e' ∈ F.blocks.flatMap (·.actions), e'.action.writeRegion = some (.map (some mapId)) →
    Relation.ReflTransGen (F.Follows w m) e'.block e.block → e'.block ≤ e.block

/-- A model executes none of the writes that stand behind the last one in the list. -/
theorem Walked.unreached_behind (h : F.Walked w kept order) (hlast : F.LastBefore w m mapId e b)
    (hordered : F.Ordered w m mapId e) {e' : Event} (he' : e' ∈ F.blocks.flatMap (·.actions))
    (hwrites : e'.action.writeRegion = some (.map (some mapId)))
    (hbehind : e.before e'.block (some e'.idx) = true)
    (hran : (F.mem w lower).ranBefore e' b = true) : (w.reachAt e'.block).eval m = false := by
  rw [← Bool.not_eq_true]
  intro htrue
  have hreached := (reachAt_eval_iff h.run m e'.block).mp htrue
  simp only [Event.before, Option.all_some, Bool.or_eq_true, Bool.and_eq_true,
    decide_eq_true_eq] at hbehind
  have hcomes : Relation.ReflTransGen (F.Follows w m) e'.block b := by
    rcases h.connected hreached hlast.reaches with hpath | hback
    · exact hpath
    · by_cases hsame : b = e'.block
      · exact hsame ▸ .refl
      · have hancestor := (Bool.and_eq_true_iff.mp hran).1
        rcases (h.ancestorOrSelf_iff (h.visited hlast.reaches)).mp hancestor with heq | hlive
        · exact absurd heq.symm hsame
        · exact absurd (h.idxOf_lt (h.trans hback hsame)) (lt_asymm (h.idxOf_lt hlive))
  have hnot : ¬Relation.ReflTransGen (F.Follows w m) e.block e'.block := by
    intro hpath
    rcases hlast.last e' he' hwrites hpath hcomes with rfl | ⟨hsame, hlt⟩
    · omega
    · omega
  rcases h.connected hlast.reached hreached with hpath | hpath
  · exact hnot hpath
  · have hle := hordered e' he' hwrites hpath
    have hsame : e.block = e'.block := by omega
    exact hnot (hsame ▸ .refl)

/-- What stands behind a write in the list of all events. -/
theorem Walked.behind (h : F.Walked w kept order) {p : Event → Bool} {done rest : List Event}
    (hsplit : (F.blocks.flatMap (·.actions)).filter p = done ++ e :: rest) {e' : Event}
    (he' : e' ∈ rest) :
    e' ∈ F.blocks.flatMap (·.actions) ∧ e.before e'.block (some e'.idx) = true := by
  have hsorted := (pairwise_events h.listed).filter p
  rw [hsplit] at hsorted
  have hmem : e' ∈ (F.blocks.flatMap (·.actions)).filter p := by
    rw [hsplit]
    simp [he']
  exact ⟨(List.mem_filter.mp hmem).1,
    (List.pairwise_cons.mp (List.pairwise_append.mp hsorted).2.1).1 e' he'⟩

/-- After an update its key is present in a folded map. -/
theorem Walked.folded_present (h : F.Walked w kept order) (hlast : F.LastBefore w m mapId e b)
    (hordered : F.Ordered w m mapId e)
    (haction : e.action = .mapUpdate (some mapId) (some key) (some value) (some 0) size)
    {fuel : Nat} {asked : ZTerm (.bv (keyBits maps mapId))} {p : ZTerm .bool}
    (hkey : ∀ k, (F.mem w lower).key mapId (some key) = .ok k → k.eval m = asked.eval m)
    (hrun : (F.mem w lower).presentFuel fuel mapId asked (some b) none = .ok p) :
    p.eval m = true := by
  have hmem : e ∈ (F.mem w lower).presenceWrites :=
    List.mem_filter.mpr ⟨hlast.recorded, by rw [haction]; rfl⟩
  obtain ⟨done, rest, hsplit⟩ := List.append_of_mem hmem
  have hran : (F.mem w lower).shown e b none = true := h.ran_last hlast
  refine presentFuel_last hsplit haction hran
    ((reachAt_eval_iff h.run m e.block).mpr hlast.reached) hkey ?_ hrun
  intro e' he' hmap hran
  obtain ⟨hrecorded, hbehind⟩ := h.behind hsplit he'
  have hpresence : e'.action.presence.isSome = true :=
    (List.mem_filter.mp (hsplit ▸ by simp [he'] : e' ∈ (F.mem w lower).presenceWrites)).2
  exact h.unreached_behind hlast hordered hrecorded
    (Memory.writeRegion_of_presence hpresence hmap) hbehind hran

/-- An update goes to each byte of the value, unless the keys are different constants. -/
theorem mayAlias_update {i : Nat} {locKey : Expr}
    (hconst : ∀ a c, locKey.num? = some a → key.num? = some c → a = c) (hi : i < size) :
    mayAlias ⟨.MAP, i, 1, some mapId, some locKey, none⟩
      (.mapUpdate (some mapId) (some key) (some value) (some 0) size) = true := by
  unfold mayAlias
  rw [if_neg (by simp [Action.region]), if_neg (by simp [Action.mapId]), if_neg, if_neg (by simp),
    if_neg (by simp [Action.varOff])]
  · have hlow : (i : Int) < 0 + (max size 1 : Nat) := by omega
    have hhigh : (0 : Int) < i + (max 1 1 : Nat) := by omega
    exact Bool.and_eq_true_iff.mpr ⟨decide_eq_true hlow, decide_eq_true hhigh⟩
  · rw [Bool.and_eq_true]
    rintro ⟨-, hkeys⟩
    dsimp only [Action.mapKey, Option.bind_some] at hkeys
    split at hkeys
    · rename_i a c ha hc
      exact of_decide_eq_true hkeys (hconst a c ha hc)
    · cases hkeys

theorem writeRegion_of_map {a : Action} (hregion : a.region = some .MAP) (hmap : a.mapId = some mapId) :
    a.writeRegion = some (.map (some mapId)) :=
  (writeRegion_of_region hregion).trans (congrArg (some ∘ StateRegion.map) hmap)

/-- After an update the bytes of a folded map under its key are those of the value. -/
theorem Walked.folded_byte (h : F.Walked w kept order) (hlast : F.LastBefore w m mapId e b)
    (hordered : F.Ordered w m mapId e)
    (haction : e.action = .mapUpdate (some mapId) (some key) (some value) (some 0) size)
    {fuel i : Nat} {locKey : Expr} {n : BitVec (keyBits maps mapId)} {t : ZTerm (.bv 8)}
    (hi : i < size) (hconst : ∀ a c, locKey.num? = some a → key.num? = some c → a = c)
    (hlocKey : ∀ k, (F.mem w lower).key mapId (some locKey) = .ok k → k.eval m = n)
    (hkey : ∀ k, (F.mem w lower).key mapId (some key) = .ok k → k.eval m = n)
    {v : ZBv} (hv : lower value = .ok v)
    (hrun : (F.mem w lower).locByte fuel ⟨.MAP, i, 1, some mapId, some locKey, none⟩ b =
      .ok (some t)) : t.eval m = BitVec.ofNat 8 (v.toNat m / 2 ^ (8 * i)) := by
  have hmem : e ∈ (F.mem w lower).writes :=
    List.mem_filter.mpr ⟨hlast.recorded, by rw [haction]; rfl⟩
  have hreach := (reachAt_eval_iff h.run m e.block).mpr hlast.reached
  obtain ⟨done, rest, hsplit⟩ := List.append_of_mem hmem
  have halias : mayAlias ⟨.MAP, i, 1, some mapId, some locKey, none⟩ e.action = true := by
    rw [haction]
    refine mayAlias_update ?_ hi
    exact hconst
  have hleft := byteAfter_last (m := m) hsplit (h.ran_last hlast) halias (by rw [haction]; rfl)
    (by rw [haction]; simp only [Action.off, Action.size]; omega)
    (fun g hg => update_guard haction hreach rfl hlocKey hkey hg)
    (fun e' he' hran halias' => by
      obtain ⟨hrecorded, hbehind⟩ := h.behind hsplit he'
      obtain ⟨hregion, hmap, -⟩ := region_of_mayAlias halias'
      exact h.unreached_behind hlast hordered hrecorded
        (writeRegion_of_map hregion (hmap rfl).symm) hbehind hran) hrun
  rw [hleft, haction]
  have hlowered : (F.mem w lower).lowerSome (some value) = .ok v := hv
  unfold Memory.leftByte Memory.stored
  rw [offsetOf_fixed rfl]
  show BitVec.ofNat 8 ((0 + (F.mem w lower).valueOf m (some value)) / 2 ^ (8 * ((i : Int) - 0).toNat)) = _
  rw [valueOf_ok hlowered, Nat.zero_add, Int.sub_zero, Int.toNat_natCast]

end Folded

/-! ## What a condition is asked of -/

/-- A state that conditions are asked of shows an entry of a map, whose key is the number `n` of
`size` bytes: a lookup of the key hits, and the bytes of its value are `vs`. -/
structure ShowsEntry (cs : CondState maps) (m : ZModel) (mapId n size : Nat)
    (vs : List (BitVec 8)) : Prop where
  hit : ∃ t, containTerm cs.reads cs.block cs.sigma mapId ⟨size * 8, bvVal n (size * 8)⟩ none true =
    .ok t ∧ t.eval m = true
  value : ∀ i < vs.length, ∃ t,
    cs.readLoc ⟨.MAP, i, 1, some mapId, some (.num n size (-1)), none⟩ = .ok t ∧
      some (t.eval m) = vs[i]?

/-- What the fold has to find out for a map atom of an entry: the presence of the key and the
bytes of the value. -/
structure EntryEncoded (F : ForwardContext maps) (w : Walk maps) (mapId n size count b : Nat) :
    Prop where
  present : F.Encoded w (.present F.fuel F.fuel mapId (some b) none)
  value : ∀ i < count,
    F.Encoded w (.byte (F.fuel + 1) ⟨.MAP, (i : Nat), 1, some mapId, some (.num n size (-1)), none⟩ b none)

section Asked

variable {F : ForwardContext maps} {w w₁ : Walk maps} {kept order : List Nat}
  {mapId b size n keySize : Nat} {e : Event} {key value : Expr} {vs : List (BitVec 8)} {k v : ZBv}

theorem toNat_num (h : n < 2 ^ (keySize * 8)) :
    Bv.toNat m ⟨keySize * 8, bvVal n (keySize * 8)⟩ = n := by
  show (BitVec.ofInt (keySize * 8) n).toNat = n
  rw [BitVec.ofInt_natCast, BitVec.toNat_ofNat, Nat.mod_eq_of_lt h]

theorem eval_resize_num (h : n < 2 ^ (keySize * 8)) (width : Nat) :
    (resize ⟨keySize * 8, bvVal n (keySize * 8)⟩ width).eval m = BitVec.ofNat width n := by
  rw [eval_resize, toNat_num h]

/-- A lookup hits a key that is present. -/
theorem containTerm_hit (hplain : isIndexed maps mapId = false) {R : Reads maps}
    {blk : Option Nat} {st : Z3State maps} {key : ZBv} {keyId : Option Int} {p : ZTerm .bool}
    (hp : R.readPresent mapId (resize key (keyBits maps mapId)) blk keyId = .ok p)
    (htrue : p.eval m = true) :
    ∃ t, containTerm (some R) blk st mapId key keyId true = .ok t ∧ t.eval m = true := by
  have hchoice : ¬(isArrayMap maps mapId || isProgMap maps mapId) = true := by
    unfold isIndexed at hplain
    simp [hplain]
  unfold containTerm
  dsimp only
  rw [if_neg hchoice, hp]
  refine ⟨_, rfl, ?_⟩
  rw [Term.eval_iff, htrue]
  rfl

/-- What is lowered under a limit is lowered to the same term under a larger one. -/
theorem lowering_extends {fuel fuel' : Nat} (h : fuel ≤ fuel') (x : Expr) :
    Lib.Extends (F.lowering w fuel x) (F.lowering w fuel' x) := by
  induction h with
  | refl => exact .refl _
  | step _ ih =>
      refine ih.trans ?_
      rename_i fuel' _
      cases fuel' with
      | zero => exact .throw _ _
      | succ fuel' => exact exprToZ3_extends (F.reads_extends fuel') none F.initSt x

/-- The entry of an update, asked for in a context that folds the map. -/
theorem Walked.showsEntry_folded (h : F.Walked w kept order) (hlast : F.LastBefore w m mapId e b)
    (hordered : F.Ordered w m mapId e) (hfold : F.fold (.map (some mapId)) = true)
    (hplain : isIndexed maps mapId = false)
    (haction : e.action = .mapUpdate (some mapId) (some key) (some value) (some 0) size)
    (hconst : ∀ c, key.num? = some c → c = n) (hn : n < 2 ^ (keySize * 8))
    (hk : exprToZ3 (F.hooked w) none F.initSt key = .ok k)
    (hkey : BitVec.ofNat (keyBits maps mapId) (k.toNat m) = BitVec.ofNat _ n)
    (hv : exprToZ3 (F.hooked w) none F.initSt value = .ok v)
    (hvalue : v.toNat m % 2 ^ (8 * vs.length) = joinNat vs) (hsize : vs.length ≤ size)
    (hencoded : EntryEncoded F w mapId n keySize vs.length b) :
    ShowsEntry (F.condState w b) m mapId n keySize vs := by
  have hasked := eval_resize_num (m := m) hn (keyBits maps mapId)
  constructor
  · obtain ⟨p, hp⟩ := (succeeds_presentFuel_key (.const 0#_) (resize ⟨keySize * 8,
      bvVal n (keySize * 8)⟩ (keyBits maps mapId))).mp ((lowers_iff_encoded F.initSt).mpr
        hencoded.present)
    have htrue : p.eval m = true := by
      refine h.folded_present hlast hordered haction (fun k' hk' => ?_) hp
      obtain ⟨t, ht, hk'⟩ := bind_eq_ok.mp hk'
      cases hk'
      have hsame : k = t := Except.ok.inj
        (hk.symm.trans (lowering_extends (Nat.le_succ F.fuel) key t ht))
      rw [eval_resize, ← hsame, hkey, hasked]
    refine containTerm_hit hplain ?_ htrue
    show (F.reads w F.fuel).readPresent mapId _ (some b) none = .ok p
    rw [reads_eq]
    show (if F.fold (.map (some mapId)) = true then _ else _) = _
    rw [if_pos hfold]
    exact hp
  · intro i hi
    obtain ⟨t, ht⟩ := (lowers_iff_encoded F.initSt).mpr (hencoded.value i hi)
    refine ⟨t, ?_, ?_⟩
    · show (if F.fold (.map (some mapId)) = true then _ else _) = _
      rw [if_pos hfold]
      show ((F.memAt w (F.fuel + 1)).byteAfter F.fuel _ (F.shown w b none) >>= _) = _
      rw [ht]
      rfl
    · have hbyte := h.folded_byte (n := BitVec.ofNat _ n) hlast hordered haction
        (Nat.lt_of_lt_of_le hi hsize) (fun a c ha hc => ?_) (fun k' hk' => ?_) (fun k' hk' => ?_)
        hv ht
      · rw [hbyte, digit_of_mod hvalue hi, List.getElem?_eq_getElem hi]
      · cases ha
        exact (hconst c hc).symm
      · cases hk'
        exact hasked
      · obtain ⟨t', ht', hk'⟩ := bind_eq_ok.mp hk'
        cases hk'
        have hsame : k = t' := Except.ok.inj (hk.symm.trans ht')
        rw [eval_resize, ← hsame, hkey]

/-- A word is known from a number with its bytes. -/
theorem ofNat_of_mod {width x : Nat} {bs : List (BitVec 8)} (hw : width = 8 * bs.length)
    (h : x % 2 ^ (8 * bs.length) = joinNat bs) :
    BitVec.ofNat width x = BitVec.ofNat width (joinNat bs) := by
  apply BitVec.eq_of_toNat_eq
  rw [BitVec.toNat_ofNat, BitVec.toNat_ofNat, hw, h, Nat.mod_eq_of_lt (joinNat_lt bs)]

/-- An update stores the value and makes the key present. -/
theorem update_stores (hhash : isHashMap maps mapId = true) {R : Option (Reads maps)}
    {blk : Option Nat} {st st' : Z3State maps} {idx : Int}
    (hk : exprToZ3 R blk st key = .ok k) (hv : exprToZ3 R blk st value = .ok v)
    (hst : mapUpdateToZ3 R blk st mapId (some key) (some value) (some 0) idx = .ok st') :
    (byteMaps m st' mapId).present (BitVec.ofNat _ (k.toNat m)) = true ∧
      (byteMaps m st' mapId).value (BitVec.ofNat _ (k.toNat m)) = Bytes.ofNat _ (v.toNat m) := by
  have hrefines : (mapUpdateToZ3 R blk st mapId (some key) (some value) (some (flagCode .any)) idx).map
      (byteMaps m) =
      ((MapAction.update (some key) (some value) .any 0).request R blk m st mapId).map
        (·.step (byteMaps m st)) := update_refines m hhash
  have hrequest : (MapAction.update (some key) (some value) .any 0).request R blk m st mapId =
      .ok (.update mapId (BitVec.ofNat _ (k.toNat m)) (Bytes.ofNat _ (v.toNat m)) .any) := by
    unfold MapAction.request
    dsimp only
    rw [someToZ3, someToZ3, hk, hv]
    rfl
  have hst' : mapUpdateToZ3 R blk st mapId (some key) (some value) (some (flagCode .any)) idx =
      .ok st' := hst
  rw [hrequest, hst'] at hrefines
  have hmap := (congrFun (Except.ok.inj hrefines) mapId).trans (Function.update_self mapId _ _)
  rw [hmap]
  exact ⟨Function.update_self _ _ _, Function.update_self _ _ _⟩

theorem Walked.sigmaAt (h : F.Walked w kept order) : F.sigmaAt w (some b) = F.stateAt w b := by
  obtain ⟨w', -, hw⟩ := bind_eq_ok.mp h.run
  cases hw
  rfl

/-- The entry of an update, asked for in a context that keeps the map in the state. -/
theorem Walked.showsEntry_kept (h : F.Walked w kept order) (hlast : F.LastBefore w m mapId e b)
    (harrives : F.Arrives order e w₁) (hkeep : F.leaves (some (.map (some mapId))) = false)
    (hhash : isHashMap maps mapId = true)
    (haction : e.action = .mapUpdate (some mapId) (some key) (some value) (some 0) size)
    (hn : n < 2 ^ (keySize * 8))
    (hk : exprToZ3 (F.hooked w₁) (some e.block) w₁.curSigma key = .ok k)
    (hkey : BitVec.ofNat (keyBits maps mapId) (k.toNat m) = BitVec.ofNat _ n)
    (hv : exprToZ3 (F.hooked w₁) (some e.block) w₁.curSigma value = .ok v)
    (hvalue : v.toNat m % 2 ^ (8 * vs.length) = joinNat vs) (hwidth : vs.length = valBytes maps mapId) :
    ShowsEntry (F.condState w b) m mapId n keySize vs := by
  obtain ⟨st, hst, hmaps⟩ := h.map_after hlast harrives hkeep
  have hupdate : mapUpdateToZ3 (F.hooked w₁) (some e.block) w₁.curSigma mapId (some key) (some value)
      (some 0) e.idx = .ok st := by
    rw [← hst]
    unfold Event.toZ3
    rw [haction]
  obtain ⟨hpresent, hstored⟩ := update_stores (m := m) hhash hk hv hupdate
  rw [hkey] at hpresent hstored
  rw [← hmaps] at hpresent hstored
  have hfold : ¬F.fold (.map (some mapId)) = true := by
    unfold leaves at hkeep
    simp only [Bool.or_eq_false_iff] at hkeep
    simp [hkeep.2]
  have hasked := eval_resize_num (m := m) hn (keyBits maps mapId)
  constructor
  · refine containTerm_hit (p := .select ((F.stateAt w b).map mapId).present
      (resize ⟨keySize * 8, bvVal n (keySize * 8)⟩ (keyBits maps mapId)))
      (not_indexed_of_hash hhash) ?_ ?_
    · show (F.reads w F.fuel).readPresent mapId _ (some b) none = _
      rw [reads_eq]
      show (if F.fold (.map (some mapId)) = true then _ else _) = _
      rw [if_neg hfold]
      show Except.ok (Term.select ((F.sigmaAt w (some b)).map mapId).present
        (resize ⟨keySize * 8, bvVal n (keySize * 8)⟩ (keyBits maps mapId))) = _
      rw [h.sigmaAt]
    · rw [Term.eval_select, hasked]
      exact hpresent
  · intro i hi
    have hlt : i < valBytes maps mapId := hwidth ▸ hi
    refine ⟨.extract (i * 8) 8 (.select ((F.stateAt w b).map mapId).value
      (resize ⟨keySize * 8, bvVal n (keySize * 8)⟩ (keyBits maps mapId))), ?_, ?_⟩
    · have hin : ¬valBits maps mapId ≤ (i : Int).toNat * 8 := by
        rw [Int.toNat_natCast]
        unfold valBits
        unfold valBytes at hlt
        omega
      unfold condState readLoc
      dsimp only
      rw [if_neg hfold, h.sigmaAt]
      refine bind_eq_ok.mpr ⟨⟨keySize * 8, bvVal n (keySize * 8)⟩, rfl, ?_⟩
      rw [if_neg (Int.not_lt.mpr (Int.natCast_nonneg i)), if_neg hin, Int.toNat_natCast]
      rfl
    · rw [Term.eval_extract, Term.eval_select, hasked]
      have hbyte := congrFun hstored ⟨i, hlt⟩
      have hword : BitVec.ofNat (valBytes maps mapId * 8) (v.toNat m) =
          BitVec.ofNat _ (joinNat vs) := ofNat_of_mod (by omega) hvalue
      rw [Bytes.ofNat, hword] at hbyte
      exact (congrArg some (hbyte.trans (Bytes.ofNat_joinNat ⟨i, hlt⟩ hi))).trans
        (List.getElem?_eq_getElem hi).symm

end Asked

end ForwardContext

end Hornet
