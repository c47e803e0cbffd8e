import Hornet.Track.Join

/-!
The nullity of joined values. `Nullity e v` says that `v` follows the nullity of `e`:
a constant where it is known, the outcome of the lookup for a lookup result, and the
null phi of a pointer that was joined. What `mergeEntry` makes of values with a
nullity has the nullity that all of them share, or else the join of theirs.
-/

namespace Hornet

/-- A lookup result, which is null when its lookup misses. -/
structure PTR.DirectLookup (p : PTR Expr) : Prop where
  region : p.ptrType = .MAP_VALUE
  key : p.mapKey.isSome
  keyId : p.mapKeyId.isSome
  own : p.mapKeyId = p.baseId
  noPhi : p.nullPhi = none

/-- The outcome of the lookup a pointer comes from. -/
def PTR.hit (p : PTR Expr) : Expr := .lookupHit p.mapId p.mapKey p.mapKeyId

/-- The value `v` follows the nullity of `e`. -/
inductive Nullity : Expr → Expr → Prop
  | null (size : Nat) (idx : Int) : Nullity (.num 0 size idx) (.num 0 1 (-1))
  | known {p : PTR Expr} (h : p.checkedNull = some false) : Nullity (.ptr p) (.num 1 1 (-1))
  | lookup {p : PTR Expr} (h : p.checkedNull = none) (hlookup : p.DirectLookup) :
      Nullity (.ptr p) p.hit
  | phi {p : PTR Expr} (h : p.checkedNull = none) {blockIdx : Nat} {regNum : Int}
      {values : List (Option Expr)} {edges : List (List Edge)}
      (hphi : p.nullPhi = some (.joinValue blockIdx regNum values edges)) :
      Nullity (.ptr p) (.joinValue blockIdx regNum values edges)

theorem Nullity.nullityValue {e v : Expr} (h : Nullity e v) : nullityValue e = some v := by
  cases h with
  | null size idx => rfl
  | known h => simp only [Hornet.nullityValue, h]
  | lookup h hlookup =>
      have hkeyId := hlookup.keyId
      rw [hlookup.own] at hkeyId
      simp [Hornet.nullityValue, h, hlookup.noPhi, hlookup.region, hlookup.key, hlookup.own, hkeyId,
        PTR.hit]
  | phi h hphi => simp only [Hornet.nullityValue, h, hphi]

/-- The nullity of a value that has one. -/
def nullityOf (e : Expr) : Expr := (nullityValue e).getD (.num 1 1 (-1))

theorem Nullity.nullityOf_eq {e v : Expr} (h : Nullity e v) : nullityOf e = v := by
  rw [nullityOf, h.nullityValue]
  rfl

/-- What is known about a pointer that has a nullity. -/
theorem Nullity.checkedNull {p : PTR Expr} {v : Expr} (h : Nullity (.ptr p) v) :
    p.checkedNull = some false ∧ v = .num 1 1 (-1) ∨ p.checkedNull = none := by
  cases h with
  | known h => exact .inl ⟨h, rfl⟩
  | lookup h _ => exact .inr h
  | phi h _ => exact .inr h

/-- An undecided pointer is a lookup result or has a null phi. -/
theorem Nullity.undecided {p : PTR Expr} {v : Expr} (h : Nullity (.ptr p) v)
    (hnone : p.checkedNull = none) : p.DirectLookup ∧ v = p.hit ∨ p.nullPhi = some v := by
  cases h with
  | known h => simp [hnone] at h
  | lookup _ hlookup => exact .inl ⟨hlookup, rfl⟩
  | phi _ hphi => exact .inr hphi

theorem Nullity.of_hit {p q : PTR Expr} (h : Nullity (.ptr p) q.hit) :
    p.checkedNull = none ∧ p.DirectLookup ∧ p.hit = q.hit := by
  generalize hv : q.hit = v at h
  cases h with
  | known h => cases hv
  | lookup h hlookup => exact ⟨h, hlookup, rfl⟩
  | phi h hphi => cases hv

theorem Nullity.withPhi {q : PTR Expr} (h : q.checkedNull = none) {phi : Option Expr}
    {blockIdx : Nat} {regNum : Int} {values : List (Option Expr)} {edges : List (List Edge)}
    (hphi : phi = some (.joinValue blockIdx regNum values edges)) :
    Nullity (.ptr { q with nullPhi := phi }) (.joinValue blockIdx regNum values edges) :=
  .phi (p := { q with nullPhi := phi }) h hphi

/-- A view changes the base of a context pointer only, which is no lookup result. -/
theorem Nullity.withView {o : Obj} {v : Expr} (h : Nullity o.val v) (baseId : Option Int)
    (copy : Origin) : Nullity (withView o baseId copy).val v := by
  unfold Hornet.withView
  split
  · rename_i p hp
    split
    · exact h
    · rename_i hctx
      rw [hp] at h
      cases h with
      | known h => exact .known h
      | lookup _ hlookup =>
          have hregion := hlookup.region
          simp [hregion] at hctx
      | phi h hphi => exact .phi (p := { p with baseId := baseId }) h hphi
  · exact h

namespace Block

variable {self : Block} {predEdges : List Edge} {objs : List Obj} {regNum : Int}

/-- The join of the nullities of the entries. -/
def nullJoin (self : Block) (predEdges : List Edge) (vals : List Expr) (regNum : Int) : Expr :=
  joinOf self.num regNum (valueGroups (groupEdges Expr.same (predEdges.zip vals)))

theorem mapM_nullityValue (h : ∀ o ∈ objs, ∃ v, Nullity o.val v) :
    objs.mapM (fun o => nullityValue o.val) = some (objs.map fun o => nullityOf o.val) := by
  induction objs with
  | nil => rfl
  | cons o objs ih =>
      obtain ⟨v, hv⟩ := h o (by simp)
      have hrest := ih fun x hx => h x (by simp [hx])
      simp [List.mapM_cons, hv.nullityValue, hv.nullityOf_eq, hrest]

theorem ptr_of_isPTR {e : Expr} (h : e.isPTR = true) : ∃ p, e = .ptr p := by
  cases e with
  | ptr p => exact ⟨p, rfl⟩
  | _ => cases h

theorem val_of_mapM_ptr? {ptrs : List (PTR Expr)} (h : objs.mapM (·.val.ptr?) = some ptrs) :
    objs.map (·.val) = ptrs.map .ptr := by
  induction objs generalizing ptrs with
  | nil =>
      obtain rfl := Option.some.inj h
      rfl
  | cons o objs ih =>
      rw [List.mapM_cons] at h
      obtain ⟨p, hp, hrest⟩ := Option.bind_eq_some_iff.mp h
      obtain ⟨ps, hps, hcons⟩ := Option.bind_eq_some_iff.mp hrest
      obtain rfl := Option.some.inj hcons
      have hval : o.val = .ptr p := by
        cases ho : o.val with
        | ptr q =>
            rw [ho] at hp
            exact congrArg Expr.ptr (Option.some.inj hp)
        | _ =>
            rw [ho] at hp
            cases hp
      rw [List.map_cons, List.map_cons, hval, ih hps]

/-- The null phi that a nullity shared by all entries is. -/
def sharedPhi : Expr → Option Expr
  | .joinValue b r vs es => some (.joinValue b r vs es)
  | _ => none

/-- Equal values share one nullity, and other ones are joined. -/
theorem nullPhiOf_cases (self : Block) (predEdges : List Edge) (regNum : Int) {v : Expr} {vs : List Expr}
    (h : objs.mapM (fun o => nullityValue o.val) = some (v :: vs)) :
    vs.all (fun u => Expr.same u v) = true ∧
        (self.nullPhiOf predEdges objs regNum).1 = sharedPhi v ∨
      (self.nullPhiOf predEdges objs regNum).1 = some (self.nullJoin predEdges (v :: vs) regNum) := by
  unfold nullPhiOf
  simp only [h]
  split
  · rename_i hall
    exact .inl ⟨hall, by cases v <;> rfl⟩
  · exact .inr rfl

theorem stampNullPhi_val {org : Origin} {p : PTR Expr} (h : p.checkedNull = none) :
    (self.stampNullPhi ⟨org, .ptr p⟩ predEdges objs regNum).1.val =
      .ptr { p with nullPhi := (self.nullPhiOf predEdges objs regNum).1 } := by
  unfold stampNullPhi
  simp only [h, Option.isSome_none, Bool.false_eq_true, if_false]
  split
  · rename_i hnone
    rw [Bool.and_eq_true, Option.isNone_iff_eq_none, Option.isNone_iff_eq_none] at hnone
    rw [hnone.1, ← hnone.2, ← h]
  · rfl

theorem stampNullPhi_decided {org : Origin} {p : PTR Expr} (h : p.checkedNull.isSome) :
    (self.stampNullPhi ⟨org, .ptr p⟩ predEdges objs regNum).1 = ⟨org, .ptr p⟩ := by
  unfold stampNullPhi
  simp only [h, if_true]

section Uniform

variable {first : Obj} {p : PTR Expr} {ptrs : List (PTR Expr)}

/-- `out` is a pointer with the given nullity, stamped by a later state of the block. -/
def Stamped (self : Block) (predEdges : List Edge) (objs : List Obj) (regNum : Int)
    (q : PTR Expr) (out : Option Obj × Block) : Prop :=
  ∃ org s, s.num = self.num ∧
    out = (some (stampNullPhi s ⟨org, .ptr q⟩ predEdges objs regNum).1,
      (stampNullPhi s ⟨org, .ptr q⟩ predEdges objs regNum).2)

theorem withNullity_eq (hp : first.val = .ptr p) (nullity : Option Bool) (copy : Origin) :
    ∃ org, withNullity first p nullity copy = ⟨org, .ptr { p with checkedNull := nullity }⟩ :=
  ⟨_, by rw [← withNullity_val hp nullity copy]⟩

theorem stamped_mergePkt (hp : first.val = .ptr p) (nullity : Option Bool)
    {o : Obj} (h : (self.mergePkt predEdges first p objs ptrs nullity regNum).1 = some o) :
    ∃ q, self.Stamped predEdges objs regNum q
        (self.mergePkt predEdges first p objs ptrs nullity regNum) ∧ q.checkedNull = nullity := by
  unfold mergePkt at h ⊢
  split at h
  · cases h
  · rename_i hbase
    rw [if_neg hbase]
    split at h
    · rename_i hobjects
      rw [if_pos hobjects]
      exact ⟨_, ⟨_, _, by rfl, rfl⟩, rfl⟩
    · rename_i hobjects
      rw [if_neg hobjects]
      obtain ⟨org, horg⟩ := withNullity_eq hp nullity (.merge self.num regNum)
      rw [horg]
      exact ⟨_, ⟨_, _, rfl, rfl⟩, rfl⟩

theorem stamped_mergeMapValue (hp : first.val = .ptr p) (nullity : Option Bool)
    {o : Obj} (h : (self.mergeMapValue predEdges first p objs ptrs nullity regNum).1 = some o) :
    ∃ q, self.Stamped predEdges objs regNum q
        (self.mergeMapValue predEdges first p objs ptrs nullity regNum) ∧
      q.checkedNull = nullity ∧
      ((∀ x ∈ ptrs, x.mapKeyId = p.mapKeyId) → q = { p with checkedNull := nullity }) := by
  unfold mergeMapValue at h ⊢
  split at h
  · cases h
  · rename_i hcell
    rw [if_neg hcell]
    split at h
    · rename_i hkeys
      rw [if_pos hkeys]
      obtain ⟨org, horg⟩ := withNullity_eq hp nullity (.merge self.num regNum)
      rw [horg]
      exact ⟨_, ⟨_, _, rfl, rfl⟩, rfl, fun _ => rfl⟩
    · rename_i hkeys
      rw [if_neg hkeys]
      refine ⟨_, ⟨_, _, by rfl, rfl⟩, rfl, fun hall => ?_⟩
      have htrue : ptrs.all (·.mapKeyId = p.mapKeyId) = true := by simpa using hall
      exact absurd htrue hkeys

theorem stamped_mergeOther (hp : first.val = .ptr p) (nullity : Option Bool)
    {o : Obj} (h : (self.mergeOther predEdges first p objs ptrs nullity regNum).1 = some o) :
    ∃ q, self.Stamped predEdges objs regNum q
        (self.mergeOther predEdges first p objs ptrs nullity regNum) ∧ q.checkedNull = nullity := by
  unfold mergeOther at h ⊢
  split at h
  · cases h
  · rename_i hplace
    rw [if_neg hplace]
    obtain ⟨org, horg⟩ := withNullity_eq hp nullity (.merge self.num regNum)
    rw [horg]
    dsimp only
    split
    · unfold withView
      dsimp only
      split
      · exact ⟨_, ⟨_, _, rfl, rfl⟩, rfl⟩
      · exact ⟨_, ⟨_, _, rfl, rfl⟩, rfl⟩
    · exact ⟨_, ⟨_, _, rfl, rfl⟩, rfl⟩

/-- A join of pointers is a stamped pointer. Lookup results of one lookup are joined
to that result. -/
theorem stamped_mergeUniform {rest : List Obj} (hp : first.val = .ptr p) {o : Obj}
    (h : (self.mergeUniform predEdges (first :: rest) regNum).1 = some o) :
    ∃ ptrs q, (first :: rest).mapM (·.val.ptr?) = some ptrs ∧
      self.Stamped predEdges (first :: rest) regNum q
        (self.mergeUniform predEdges (first :: rest) regNum) ∧
      q.checkedNull = foldNullity (ptrs.map (·.checkedNull)) ∧
      (p.ptrType = .MAP_VALUE → (∀ x ∈ ptrs, x.mapKeyId = p.mapKeyId) →
        q = { p with checkedNull := foldNullity (ptrs.map (·.checkedNull)) }) := by
  obtain ⟨out, hout⟩ : ∃ out, self.mergeUniform predEdges (first :: rest) regNum = out := ⟨_, rfl⟩
  rw [hout] at h ⊢
  unfold mergeUniform at hout
  simp only [hp] at hout
  split at hout
  · cases hout
    cases h
  · rename_i ptrs hptrs
    split at hout
    · cases hout
      cases h
    · refine ⟨ptrs, ?_⟩
      split at hout
      · rename_i htype
        subst hout
        obtain ⟨q, hq, hnull⟩ := stamped_mergePkt hp _ h
        exact ⟨q, hptrs, hq, hnull, fun hm => by simp [htype] at hm⟩
      · subst hout
        obtain ⟨q, hq, hnull, hkeys⟩ := stamped_mergeMapValue hp _ h
        exact ⟨q, hptrs, hq, hnull, fun _ => hkeys⟩
      · rename_i hother
        subst hout
        obtain ⟨q, hq, hnull⟩ := stamped_mergeOther hp _ h
        exact ⟨q, hptrs, hq, hnull, fun hm => absurd hm hother⟩

theorem eq_of_foldNullity {xs : List (Option Bool)} {b : Bool} (h : foldNullity xs = some b) :
    ∀ x ∈ xs, x = some b := by
  cases xs with
  | nil => cases h
  | cons y ys =>
      rw [foldNullity] at h
      split at h
      · rename_i hall
        subst h
        simpa using hall
      · cases h

theorem foldNullity_eq {xs : List (Option Bool)} {x : Option Bool} (hne : xs ≠ [])
    (h : ∀ y ∈ xs, y = x) : foldNullity xs = x := by
  cases xs with
  | nil => exact absurd rfl hne
  | cons y ys =>
      have hy := h y (by simp)
      have hall : ys.all (· = y) = true := by
        rw [List.all_eq_true]
        intro z hz
        exact decide_eq_true ((h z (by simp [hz])).trans hy.symm)
      rw [foldNullity, if_pos hall, hy]

end Uniform

/-- What a join makes of the nullities of its entries. -/
def JoinsNullity (self : Block) (predEdges : List Edge) (objs : List Obj) (regNum : Int)
    (e : Expr) : Prop :=
  ∃ w, Nullity e w ∧ ((∀ o ∈ objs, Nullity o.val w) ∨
    w = self.nullJoin predEdges (objs.map fun o => nullityOf o.val) regNum)

/-- Equal nullities of the entries are one value. -/
def SameNullity (objs : List Obj) : Prop :=
  ∀ o ∈ objs, ∀ o' ∈ objs, ∀ u v, Nullity o.val u → Nullity o'.val v → Expr.same u v = true → u = v

/-- A join of pointers whose nullity is decided. -/
theorem joinsNullity_decided {org : Origin} {q : PTR Expr} (hq : q.checkedNull = some false)
    (h : ∀ o ∈ objs, ∃ x, o.val = .ptr x ∧ x.checkedNull = some false) {s : Block} :
    self.JoinsNullity predEdges objs regNum
      (s.stampNullPhi ⟨org, .ptr q⟩ predEdges objs regNum).1.val := by
  rw [stampNullPhi_decided (by simp [hq])]
  refine ⟨_, .known hq, .inl fun o ho => ?_⟩
  obtain ⟨x, hx, hknown⟩ := h o ho
  rw [hx]
  exact .known hknown

/-- A join of pointers of which one is undecided. What all entries share is kept, and a
pointer without a null phi is kept only where the entries come from one lookup. -/
theorem joinsNullity_undecided {first : Obj} {rest : List Obj} {v : Expr}
    (hfirst : Nullity first.val v) (hobjs : ∀ o ∈ first :: rest, ∃ u, Nullity o.val u)
    (hsame : SameNullity (first :: rest)) {s : Block} (hnum : s.num = self.num) {org : Origin}
    {q : PTR Expr} (hq : q.checkedNull = none)
    (hnull : ¬ ∀ o ∈ first :: rest, Nullity o.val (.num 0 1 (-1)))
    (hknown : ¬ ∀ o ∈ first :: rest, Nullity o.val (.num 1 1 (-1)))
    (hlookup : ∀ p, first.val = .ptr p → v = p.hit → (∀ o ∈ first :: rest, Nullity o.val p.hit) →
      q = p) :
    self.JoinsNullity predEdges (first :: rest) regNum
      (s.stampNullPhi ⟨org, .ptr q⟩ predEdges (first :: rest) regNum).1.val := by
  have hvals := mapM_nullityValue hobjs
  rw [List.map_cons, hfirst.nullityOf_eq] at hvals
  rw [stampNullPhi_val hq]
  rcases s.nullPhiOf_cases predEdges regNum hvals with ⟨hall, hphi⟩ | hphi
  · have hshared : ∀ o ∈ first :: rest, Nullity o.val v := by
      intro o ho
      obtain ⟨u, hu⟩ := hobjs o ho
      rcases List.mem_cons.mp ho with rfl | hmem
      · exact hfirst
      · have hu' := List.all_eq_true.mp hall u (List.mem_map.mpr ⟨o, hmem, hu.nullityOf_eq⟩)
        exact hsame o ho first (by simp) u v hu hfirst hu' ▸ hu
    rw [hphi]
    cases hval : first.val with
    | ptr p =>
        rw [hval] at hfirst
        cases hfirst with
        | known h => exact absurd hshared hknown
        | lookup h hdirect =>
            obtain rfl := hlookup p hval rfl hshared
            refine ⟨q.hit, ?_, .inl hshared⟩
            have hself : { q with nullPhi := sharedPhi q.hit } = q := by
              obtain ⟨-, -, -, -, hnone⟩ := hdirect
              simp only [sharedPhi, PTR.hit, ← hnone]
            rw [hself]
            exact .lookup h hdirect
        | phi h hp => exact ⟨_, .withPhi hq rfl, .inl hshared⟩
    | num n size idx =>
        rw [hval] at hfirst
        cases hfirst with
        | null => exact absurd hshared hnull
    | _ =>
        rw [hval] at hfirst
        cases hfirst
  · refine ⟨_, .withPhi hq hphi, .inr ?_⟩
    rw [List.map_cons, hfirst.nullityOf_eq, nullJoin, hnum]
    rfl

/-- A join of null constants is a null constant. -/
theorem joinsNullity_nulls {first : Obj} {rest : List Obj} (hfirst : first.val.isPTR = false)
    (hobjs : ∀ o ∈ first :: rest, ∃ u, Nullity o.val u) {o : Obj}
    (h : (self.mergeUniform predEdges (first :: rest) regNum).1 = some o) :
    self.JoinsNullity predEdges (first :: rest) regNum o.val := by
  have hnull : ∀ x ∈ first :: rest, x.val.isPTR = false → ∃ size idx, x.val = .num 0 size idx := by
    intro x hx hptr
    obtain ⟨u, hu⟩ := hobjs x hx
    cases hval : x.val with
    | ptr p =>
        rw [hval] at hptr
        cases hptr
    | num n size idx =>
        rw [hval] at hu
        cases hu with
        | null => exact ⟨size, idx, rfl⟩
    | _ =>
        rw [hval] at hu
        cases hu
  obtain ⟨size, idx, hval⟩ := hnull first (by simp) hfirst
  unfold mergeUniform at h
  simp only [hval] at h
  split at h
  · cases h
  · rename_i hany
    have hzero : ∀ x ∈ first :: rest, ∃ size idx, x.val = .num 0 size idx := by
      intro x hx
      apply hnull x hx
      rw [← Bool.not_eq_true]
      intro hptr
      exact hany (List.any_eq_true.mpr ⟨x, hx, hptr⟩)
    have hall : (first :: rest).all (·.val.num? = some 0) = true := by
      rw [List.all_eq_true]
      intro x hx
      obtain ⟨size, idx, hx⟩ := hzero x hx
      simp [hx, Expr.num?]
    have hscalar : self.mergeScalar predEdges first (first :: rest) regNum = (some first, self) := by
      have hnum : first.val.num? = some 0 := by
        rw [hval]
        rfl
      unfold mergeScalar
      simp only [hnum, hall, if_true]
    rw [hscalar] at h
    obtain rfl := Option.some.inj h
    have hall : ∀ x ∈ first :: rest, Nullity x.val (.num 0 1 (-1)) := by
      intro x hx
      obtain ⟨size, idx, hx⟩ := hzero x hx
      rw [hx]
      exact .null size idx
    exact ⟨_, hall first (by simp), .inl hall⟩

theorem joinsNullity_mergeUniform (hobjs : ∀ o ∈ objs, ∃ u, Nullity o.val u)
    (hsame : SameNullity objs) {o : Obj}
    (h : (self.mergeUniform predEdges objs regNum).1 = some o) :
    self.JoinsNullity predEdges objs regNum o.val := by
  cases objs with
  | nil => cases h
  | cons first rest =>
      cases hfirst : first.val.isPTR with
      | false => exact joinsNullity_nulls hfirst hobjs h
      | true =>
          obtain ⟨p, hp⟩ := ptr_of_isPTR hfirst
          obtain ⟨ptrs, q, hptrs, ⟨org, s, hnum, hout⟩, hnull, hkeys⟩ := stamped_mergeUniform hp h
          have hvals := val_of_mapM_ptr? hptrs
          have hmem : ∀ x ∈ first :: rest, ∃ y ∈ ptrs, x.val = .ptr y := by
            intro x hx
            have hx' : x.val ∈ ptrs.map Expr.ptr := hvals ▸ List.mem_map_of_mem hx
            obtain ⟨y, hy, hxy⟩ := List.mem_map.mp hx'
            exact ⟨y, hy, hxy.symm⟩
          have hback : ∀ y ∈ ptrs, ∃ x ∈ first :: rest, x.val = .ptr y := by
            intro y hy
            have hy' : Expr.ptr y ∈ (first :: rest).map (·.val) := hvals ▸ List.mem_map_of_mem hy
            exact List.mem_map.mp hy'
          rw [hout] at h
          obtain rfl := Option.some.inj h
          obtain ⟨y, hy, -⟩ := hmem first (by simp)
          have hne : ptrs.map (·.checkedNull) ≠ [] := by
            simpa using List.ne_nil_of_mem hy
          cases hfold : foldNullity (ptrs.map (·.checkedNull)) with
          | some b =>
              have hdecided : ∀ x ∈ first :: rest, ∃ y, x.val = .ptr y ∧ y.checkedNull = some false ∧
                  b = false := by
                intro x hx
                obtain ⟨y, hy, hxy⟩ := hmem x hx
                have hb := eq_of_foldNullity hfold _ (List.mem_map_of_mem hy)
                obtain ⟨u, hu⟩ := hobjs x hx
                rw [hxy] at hu
                rcases hu.checkedNull with ⟨hfalse, -⟩ | hnone
                · exact ⟨y, hxy, hfalse, Option.some.inj (hb.symm.trans hfalse)⟩
                · rw [hnone] at hb
                  cases hb
              obtain ⟨-, -, -, hb⟩ := hdecided first (by simp)
              apply joinsNullity_decided (hnull.trans (hb ▸ hfold))
              intro x hx
              obtain ⟨y, hxy, hfalse, -⟩ := hdecided x hx
              exact ⟨y, hxy, hfalse⟩
          | none =>
              obtain ⟨v, hv⟩ := hobjs first (by simp)
              rw [hfold] at hnull hkeys
              apply joinsNullity_undecided hv hobjs hsame hnum hnull
              · intro hall
                have hzero := hp ▸ hall first (by simp)
                cases hzero
              · intro hall
                have hfalse : ∀ c ∈ ptrs.map (·.checkedNull), c = some false := by
                  intro c hc
                  obtain ⟨y, hy, rfl⟩ := List.mem_map.mp hc
                  obtain ⟨x, hx, hxy⟩ := hback y hy
                  have hone := hxy ▸ hall x hx
                  cases hone with
                  | known h => exact h
                rw [foldNullity_eq hne hfalse] at hfold
                cases hfold
              · intro p' hp' hv' hall
                obtain rfl := Expr.ptr.inj (hp.symm.trans hp')
                obtain ⟨hnone, hdirect, -⟩ := (hp ▸ hall first (by simp) : Nullity (.ptr p) p.hit).of_hit
                rw [hkeys hdirect.region ?_, ← hnone]
                intro y hy
                obtain ⟨x, hx, hxy⟩ := hback y hy
                obtain ⟨-, -, hhit⟩ := (hxy ▸ hall x hx : Nullity (.ptr y) p.hit).of_hit
                exact (Expr.lookupHit.inj hhit).2.2

/-- A null constant among the entries shares its nullity with no pointer. -/
theorem nullity_of_constant {e v : Expr} (h : Nullity e v) (hptr : e.isPTR = false) :
    v = .num 0 1 (-1) := by
  cases h with
  | null => rfl
  | _ => cases hptr

theorem nullity_of_pointer {e v : Expr} (h : Nullity e v) (hptr : e.isPTR = true) :
    v ≠ .num 0 1 (-1) := by
  cases h with
  | null => cases hptr
  | _ => exact fun heq => by cases heq

theorem undecide_undecided (self : Block) (regNum : Int) (org : Origin) (p : PTR Expr) :
    ∃ org' p', (self.undecide org p regNum).1 = ⟨org', .ptr p'⟩ ∧ p'.checkedNull = none ∧
      (self.undecide org p regNum).2.num = self.num := by
  unfold undecide
  split
  · dsimp only [newPtrId]
    refine ⟨_, _, rfl, rfl, ?_⟩
    split <;> rfl
  · rename_i hnone
    exact ⟨org, p, rfl, by simpa using hnone, rfl⟩

/-- A join of a pointer with null constants. -/
theorem joinsNullity_mergeNulls (hobjs : ∀ o ∈ objs, ∃ u, Nullity o.val u)
    (hsame : SameNullity objs) {x y : Obj} (hx : x ∈ objs) (hy : y ∈ objs)
    (hconstant : x.val.isPTR = false) (hpointer : y.val.isPTR = true) {s : Block}
    (hnum : s.num = self.num) {merged : Option Obj} {o : Obj}
    (h : (s.mergeNulls predEdges objs regNum merged).1 = some o) :
    self.JoinsNullity predEdges objs regNum o.val := by
  have hother : ∀ v, ¬ ∀ o ∈ objs, Nullity o.val v := by
    intro v hall
    exact nullity_of_pointer (hall y hy) hpointer (nullity_of_constant (hall x hx) hconstant)
  cases objs with
  | nil => cases hx
  | cons first rest =>
      obtain ⟨v, hv⟩ := hobjs first (by simp)
      unfold mergeNulls at h
      split at h
      · rename_i org p
        obtain ⟨org', p', hout, hnone, hnum'⟩ := s.undecide_undecided regNum org p
        dsimp only at h
        rw [hout] at h
        obtain rfl := Option.some.inj h
        apply joinsNullity_undecided hv hobjs hsame (hnum'.trans hnum) hnone (hother _) (hother _)
        intro p'' _ _ hall
        exact absurd hall (hother _)
      · cases h

theorem num_nullPhiOf : (self.nullPhiOf predEdges objs regNum).2.num = self.num := by
  unfold nullPhiOf
  split
  · split <;> rfl
  · rfl

theorem num_stampNullPhi (o : Obj) :
    (self.stampNullPhi o predEdges objs regNum).2.num = self.num := by
  unfold stampNullPhi
  split
  · split
    · rfl
    · dsimp only
      split
      · exact num_nullPhiOf
      · exact num_nullPhiOf
  · rfl

/-- A join of pointers leaves the number of its block. -/
theorem num_mergeUniform {first : Obj} {rest : List Obj} {p : PTR Expr} (hp : first.val = .ptr p)
    {o : Obj} (h : (self.mergeUniform predEdges (first :: rest) regNum).1 = some o) :
    (self.mergeUniform predEdges (first :: rest) regNum).2.num = self.num := by
  obtain ⟨-, q, -, ⟨org, s, hnum, hout⟩, -⟩ := stamped_mergeUniform hp h
  rw [hout]
  exact (num_stampNullPhi _).trans hnum

/-- What `mergeEntry` hands back for values with a nullity has one, which it shares with
all entries or which is the join of theirs. -/
theorem joinsNullity_mergeEntry {entries : List (Option Obj)} {predConds : List (Option EdgeFact)}
    (hres : self.resolveEntries regNum entries.length predConds entries = objs.map some)
    (hobjs : ∀ o ∈ objs, ∃ u, Nullity o.val u) (hsame : SameNullity objs) {o : Obj}
    (h : (self.mergeEntry predEdges entries regNum predConds).1 = some o) :
    self.JoinsNullity predEdges objs regNum o.val := by
  rw [self.mergeEntry_resolved regNum hres] at h
  split at h
  · rename_i hmixed
    rw [Bool.and_eq_true, Bool.not_eq_true', List.any_eq_true] at hmixed
    obtain ⟨⟨y, hy, hpointer⟩, hall⟩ := hmixed
    obtain ⟨x, hx, hconstant⟩ := List.all_eq_false.mp hall
    split at h
    · cases h
    · dsimp only at h
      have hzs : ∀ z ∈ ((predEdges.zip objs).filter (·.2.val.isPTR)).map (·.2), z.val.isPTR = true := by
        intro z hz
        obtain ⟨w, hw, rfl⟩ := List.mem_map.mp hz
        exact (List.mem_filter.mp hw).2
      generalize ((predEdges.zip objs).filter (·.2.val.isPTR)).map (·.2) = zs at h hzs
      cases hmerged : (self.mergeUniform
          (((predEdges.zip objs).filter (·.2.val.isPTR)).map (·.1)) zs regNum).1 with
      | none =>
          rw [hmerged] at h
          cases h
      | some merged =>
          cases zs with
          | nil => cases hmerged
          | cons first rest =>
              obtain ⟨p, hp⟩ : ∃ p, first.val = .ptr p := ptr_of_isPTR (hzs first (by simp))
              exact joinsNullity_mergeNulls hobjs hsame hx hy (by simpa using hconstant) hpointer
                (num_mergeUniform hp hmerged) h
  · exact joinsNullity_mergeUniform hobjs hsame h

theorem withView_val (o : Obj) (baseId : Option Int) (copy copy' : Origin) :
    (withView o baseId copy).val = (withView o baseId copy').val := by
  unfold withView
  split
  · split <;> rfl
  · rfl

/-- A value with the null facts of its edge applied. -/
def settle (self : Block) (c : Option EdgeFact) : Expr → Expr
  | .ptr p =>
      if p.checkedNull.isSome then .ptr p
      else
        match self.knownNull c p with
        | some false => .ptr { p with checkedNull := some false }
        | some true => .num 0 8 (-1)
        | none => .ptr p
  | e => e

theorem resolveEntry_val (depth k : Nat) (c : Option EdgeFact) (v : Option Obj) :
    (self.resolveEntry regNum depth k c v).map (·.val) =
      (self.viewEntry regNum depth k c v).map fun o => self.settle c o.val := by
  unfold resolveEntry
  cases hw : self.viewEntry regNum depth k c v with
  | none => rfl
  | some o =>
      obtain ⟨org, val⟩ := o
      cases val with
      | ptr p =>
          simp only [Option.map_some, settle]
          split
          · rfl
          · cases self.knownNull c p with
            | none => rfl
            | some null =>
                cases null with
                | false => exact congrArg some (withNullity_val rfl _ _)
                | true => rfl
      | _ => rfl

/-- The position of an entry decides only which object it becomes. -/
theorem resolveEntry_position (depth k depth' k' : Nat) (c : Option EdgeFact) (v : Option Obj) :
    (self.resolveEntry regNum depth k c v).map (·.val) =
      (self.resolveEntry regNum depth' k' c v).map (·.val) := by
  rw [resolveEntry_val, resolveEntry_val]
  unfold viewEntry
  split
  · cases v with
    | none => rfl
    | some o => exact congrArg (fun e => some (self.settle _ e)) (withView_val o _ _ _)
  · rfl

/-- Resolved entries are what arrives, seen in a view and with null facts applied. -/
theorem entry_of_resolveEntry {depth k : Nat} {c : Option EdgeFact} {v : Option Obj} {e : Expr}
    (h : (self.resolveEntry regNum depth k c v).map (·.val) = some e) :
    ∃ o, v = some o ∧ (e = self.settle c o.val ∨
      ∃ baseId copy, e = self.settle c (withView o baseId copy).val) := by
  rw [resolveEntry_val] at h
  unfold viewEntry at h
  cases v with
  | none =>
      split at h <;> cases h
  | some o =>
      refine ⟨o, rfl, ?_⟩
      split at h
      · exact .inr ⟨_, _, (Option.some.inj h).symm⟩
      · exact .inl (Option.some.inj h).symm

end Block

end Hornet
