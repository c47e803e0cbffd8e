import Hornet.Track.Nullity
import Hornet.Verify.Phi

/-!
Null phis over nested joins. A nest is a set of joins that feed each other lookup
results, known pointers and null constants. The null phi of a pointer that comes out
of it is worth zero exactly when the value on the taken path is null.
-/

namespace Hornet

open Smt

/-- What an edge brings to a slot. -/
structure Arrival where
  edge : Edge
  value : Option Obj
  cond : Option EdgeFact

/-- The lookups and joins of a program. A lookup has one result; a block joins a slot
once, and one edge brings one value to it. -/
structure Nest where
  lookup : Int → Option (PTR Expr)
  direct : ∀ {i p}, lookup i = some p →
    p.DirectLookup ∧ p.checkedNull = none ∧ p.mapKeyId = some i
  block : Nat → Int → Block
  num_block : ∀ b r, (block b r).num = b
  arrivals : Nat → Int → List Arrival
  one_arrival : ∀ {b r x y}, x ∈ arrivals b r → y ∈ arrivals b r → x.edge = y.edge → x = y

namespace Nest

variable (N : Nest)

def edges (b : Nat) (r : Int) : List Edge := (N.arrivals b r).map (·.edge)

/-- The value that block `b` joins for slot `r`. -/
def join (b : Nat) (r : Int) : Option Obj :=
  ((N.block b r).mergeEntry (N.edges b r) ((N.arrivals b r).map (·.value)) r
    ((N.arrivals b r).map (·.cond))).1

/-- The entry that is merged from an edge: what arrives, with the facts of the edge
applied. -/
def entry (b : Nat) (r : Int) (a : Arrival) : Option Expr :=
  ((N.block b r).resolveEntry r 0 0 a.cond a.value).map (·.val)

/-- The values that arise in the nest. -/
inductive Arises : Expr → Prop
  | null (size : Nat) (idx : Int) : Arises (.num 0 size idx)
  | known {p : PTR Expr} (h : p.checkedNull = some false) : Arises (.ptr p)
  | lookup {i : Int} {p : PTR Expr} (h : N.lookup i = some p) : Arises (.ptr p)
  | view {o : Obj} (h : Arises o.val) (baseId : Option Int) (copy : Origin) :
      Arises (withView o baseId copy).val
  | join {b : Nat} {r : Int} {o : Obj}
      (hargs : ∀ a ∈ N.arrivals b r, ∀ v, a.value = some v → Arises v.val)
      (h : N.join b r = some o) : Arises o.val

section Path

variable {maps : List MapInfo} (R : Reads maps) (m : ZModel) (outcome : Int → Bool)

/-- Whether a value is null on the path of the model. At a join the path goes on with
the only incoming edge that is taken. -/
inductive NullOnPath : Expr → Bool → Prop
  | null (size : Nat) (idx : Int) : NullOnPath (.num 0 size idx) true
  | known {p : PTR Expr} (h : p.checkedNull = some false) : NullOnPath (.ptr p) false
  | lookup {i : Int} {p : PTR Expr} (h : N.lookup i = some p) : NullOnPath (.ptr p) (!outcome i)
  | view {o : Obj} {null : Bool} (h : NullOnPath o.val null) (baseId : Option Int) (copy : Origin) :
      NullOnPath (withView o baseId copy).val null
  | join {b : Nat} {r : Int} {o : Obj} {a : Arrival} {v : Expr} {null : Bool}
      (hargs : ∀ a ∈ N.arrivals b r, ∀ v, a.value = some v → N.Arises v.val)
      (h : N.join b r = some o) (ha : a ∈ N.arrivals b r) (htaken : R.taken m a.edge = true)
      (honly : ∀ a' ∈ N.arrivals b r, a'.edge ≠ a.edge → R.taken m a'.edge = false)
      (hentry : N.entry b r a = some v) (hnull : NullOnPath v null) : NullOnPath o.val null

/-- The outcome of a lookup is what the term of its hit says. -/
def ReadsLookups : Prop :=
  ∀ i p, N.lookup i = some p → ∃ t, exprToZ3 (some R) none R.base p.hit = .ok t ∧
    (t.toNat m = 0 ↔ outcome i = false)

end Path

/-- The nullities of the entries, and their join. -/
def nullities (b : Nat) (r : Int) : List Expr :=
  ((N.arrivals b r).filterMap (N.entry b r)).map nullityOf

def phi (b : Nat) (r : Int) : Expr := (N.block b r).nullJoin (N.edges b r) (N.nullities b r) r

/-- The values that follow the nullity of what arises in the nest. -/
inductive Follows : Expr → Prop
  | null : Follows (.num 0 1 (-1))
  | known : Follows (.num 1 1 (-1))
  | lookup {i : Int} {p : PTR Expr} (h : N.lookup i = some p) : Follows p.hit
  | phi {b : Nat} {r : Int} (h : ∀ v ∈ N.nullities b r, Follows v) : Follows (N.phi b r)

variable {N}

/-- A lookup has one result and a block joins a slot once, so that equal values are one
value. -/
theorem Follows.eq_of_same {u v : Expr} (hu : N.Follows u) (hv : N.Follows v)
    (h : Expr.same u v = true) : u = v := by
  have hphi : ∀ b r, ∃ vs es, N.phi b r = .joinValue b r vs es := by
    intro b r
    exact ⟨_, _, by rw [Nest.phi, Block.nullJoin, joinOf, N.num_block]⟩
  cases hu with
  | null =>
      cases hv with
      | null => rfl
      | known => simp [Expr.same] at h
      | lookup => simp [Expr.same, PTR.hit] at h
      | @phi b r _ =>
          obtain ⟨vs, es, hj⟩ := hphi b r
          simp [Expr.same, hj] at h
  | known =>
      cases hv with
      | known => rfl
      | null => simp [Expr.same] at h
      | lookup => simp [Expr.same, PTR.hit] at h
      | @phi b r _ =>
          obtain ⟨vs, es, hj⟩ := hphi b r
          simp [Expr.same, hj] at h
  | @lookup i p hp =>
      cases hv with
      | null => simp [Expr.same, PTR.hit] at h
      | known => simp [Expr.same, PTR.hit] at h
      | @phi b r _ =>
          obtain ⟨vs, es, hj⟩ := hphi b r
          simp [Expr.same, PTR.hit, hj] at h
      | @lookup i' p' hp' =>
          have hkey : p.mapKeyId = p'.mapKeyId := by
            simp only [PTR.hit, Expr.same, Bool.and_eq_true, decide_eq_true_eq] at h
            exact h.2
          rw [(N.direct hp).2.2, (N.direct hp').2.2] at hkey
          obtain rfl := Option.some.inj hkey
          obtain rfl := Option.some.inj (hp.symm.trans hp')
          rfl
  | @phi b r _ =>
      obtain ⟨vs, es, hj⟩ := hphi b r
      cases hv with
      | null => simp [Expr.same, hj] at h
      | known => simp [Expr.same, hj] at h
      | lookup => simp [Expr.same, PTR.hit, hj] at h
      | @phi b' r' _ =>
          obtain ⟨vs', es', hj'⟩ := hphi b' r'
          simp only [hj, hj', Expr.same, Bool.and_eq_true, decide_eq_true_eq] at h
          obtain ⟨rfl, rfl⟩ := h
          rfl

/-- The entries of a join that has a result. -/
theorem join_entries {b : Nat} {r : Int} {o : Obj} (h : N.join b r = some o) :
    ∃ objs : List Obj, objs ≠ [] ∧
      (N.block b r).resolveEntries r ((N.arrivals b r).map (·.value)).length
        ((N.arrivals b r).map (·.cond)) ((N.arrivals b r).map (·.value)) = objs.map some ∧
      (N.arrivals b r).map (N.entry b r) = objs.map fun o => some o.val := by
  cases hobjs : ((N.block b r).resolveEntries r ((N.arrivals b r).map (·.value)).length
      ((N.arrivals b r).map (·.cond)) ((N.arrivals b r).map (·.value))).mapM id with
  | none =>
      unfold join Block.mergeEntry at h
      rw [Block.mergeEntryFuel, hobjs] at h
      cases h
  | some objs =>
      have hres := Lib.eq_map_of_mapM_id hobjs
      refine ⟨objs, ?_, hres, ?_⟩
      · rintro rfl
        unfold join at h
        rw [(N.block b r).mergeEntry_resolved r hres] at h
        cases h
      · rw [Block.resolveEntries_map] at hres
        have hvals := congrArg (List.map (Option.map (·.val))) hres
        rw [List.map_map, List.map_map] at hvals
        have hentry : ∀ y : Arrival × Nat, (Option.map (·.val) ∘ fun y : Arrival × Nat =>
            (N.block b r).resolveEntry r ((N.arrivals b r).map (·.value)).length y.2 y.1.cond
              y.1.value) y = N.entry b r y.1 :=
          fun y => Block.resolveEntry_position _ _ _ _ _ _
        rw [List.map_congr_left fun y _ => hentry y] at hvals
        calc
          (N.arrivals b r).map (N.entry b r)
              = ((N.arrivals b r).zipIdx.map Prod.fst).map (N.entry b r) := by
                rw [List.zipIdx_map_fst]
          _ = objs.map fun o => some o.val := by
                rw [List.map_map]
                exact hvals

theorem nullities_eq {b : Nat} {r : Int} {objs : List Obj}
    (h : (N.arrivals b r).map (N.entry b r) = objs.map fun o => some o.val) :
    N.nullities b r = objs.map fun o => nullityOf o.val := by
  have hentries : (N.arrivals b r).filterMap (N.entry b r) = objs.map (·.val) := by
    have hid := congrArg (List.filterMap id) h
    rw [List.filterMap_map, List.filterMap_map] at hid
    exact hid.trans (congrFun List.filterMap_eq_map objs)
  rw [nullities, hentries, List.map_map]
  rfl

/-- A value of the nest whose nullity is followed. -/
def Followed (N : Nest) (e : Expr) : Prop := ∃ v, Nullity e v ∧ N.Follows v

theorem Followed.settle {e : Expr} (h : N.Followed e) (block : Block) (c : Option EdgeFact) :
    N.Followed (block.settle c e) := by
  unfold Block.settle
  split
  · split
    · exact h
    · split
      · exact ⟨_, .known rfl, .known⟩
      · exact ⟨_, .null 8 (-1), .null⟩
      · exact h
  · exact h

theorem Followed.withView {o : Obj} (h : N.Followed o.val) (baseId : Option Int) (copy : Origin) :
    N.Followed (withView o baseId copy).val := by
  obtain ⟨v, hv, hfollows⟩ := h
  exact ⟨v, hv.withView baseId copy, hfollows⟩

theorem Followed.entry {b : Nat} {r : Int} {a : Arrival}
    (h : ∀ v, a.value = some v → N.Followed v.val) {e : Expr} (he : N.entry b r a = some e) :
    N.Followed e := by
  obtain ⟨o, ho, rfl | ⟨baseId, copy, rfl⟩⟩ := Block.entry_of_resolveEntry he
  · exact (h o ho).settle _ _
  · exact ((h o ho).withView baseId copy).settle _ _

/-- What a join of followed values makes of their nullities. -/
theorem join_nullity {b : Nat} {r : Int}
    (hargs : ∀ a ∈ N.arrivals b r, ∀ v, a.value = some v → N.Followed v.val) {o : Obj}
    (h : N.join b r = some o) :
    (∀ v ∈ N.nullities b r, N.Follows v) ∧
      ∃ w, Nullity o.val w ∧ (w = N.phi b r ∨ N.nullities b r ≠ [] ∧
        ∀ a ∈ N.arrivals b r, ∀ e, N.entry b r a = some e → Nullity e w) := by
  obtain ⟨objs, hne, hres, harrivals⟩ := join_entries h
  have hmem : ∀ x ∈ objs, ∃ a ∈ N.arrivals b r, N.entry b r a = some x.val := by
    intro x hx
    have hx' : some x.val ∈ (N.arrivals b r).map (N.entry b r) := by
      rw [harrivals]
      exact List.mem_map_of_mem (f := fun o : Obj => some o.val) hx
    exact List.mem_map.mp hx'
  have hfollowed : ∀ x ∈ objs, N.Followed x.val := by
    intro x hx
    obtain ⟨a, ha, hentry⟩ := hmem x hx
    exact .entry (hargs a ha) hentry
  have hnullities := nullities_eq harrivals
  have hfollows : ∀ v ∈ N.nullities b r, N.Follows v := by
    intro v hv
    rw [hnullities] at hv
    obtain ⟨x, hx, rfl⟩ := List.mem_map.mp hv
    obtain ⟨v, hv, hfollows⟩ := hfollowed x hx
    rw [hv.nullityOf_eq]
    exact hfollows
  refine ⟨hfollows, ?_⟩
  have hsame : Block.SameNullity objs := by
    intro x hx y hy u v hu hv hsame
    obtain ⟨u', hu', hfollowsu⟩ := hfollowed x hx
    obtain ⟨v', hv', hfollowsv⟩ := hfollowed y hy
    rw [← hu.nullityOf_eq, hu'.nullityOf_eq, ← hv.nullityOf_eq, hv'.nullityOf_eq] at hsame ⊢
    exact hfollowsu.eq_of_same hfollowsv hsame
  obtain ⟨w, hw, hshared | hphi⟩ := Block.joinsNullity_mergeEntry hres
    (fun x hx => (hfollowed x hx).imp fun _ h => h.1) hsame h
  · refine ⟨w, hw, .inr ⟨by simpa [hnullities] using hne, fun a ha e he => ?_⟩⟩
    have hmem' : some e ∈ objs.map fun o => some o.val := by
      rw [← harrivals, ← he]
      exact List.mem_map_of_mem ha
    obtain ⟨x, hx, hxe⟩ := List.mem_map.mp hmem'
    obtain rfl := Option.some.inj hxe
    exact hshared x hx
  · refine ⟨w, hw, .inl ?_⟩
    rw [hphi, phi, hnullities]

theorem Arises.followed {e : Expr} (h : N.Arises e) : N.Followed e := by
  induction h with
  | null size idx => exact ⟨_, .null size idx, .null⟩
  | known h => exact ⟨_, .known h, .known⟩
  | lookup h =>
      obtain ⟨hdirect, hnone, -⟩ := N.direct h
      exact ⟨_, .lookup hnone hdirect, .lookup h⟩
  | view _ baseId copy ih => exact ih.withView baseId copy
  | @join b r o _ h ih =>
      obtain ⟨hfollows, w, hw, rfl | ⟨hne, hshared⟩⟩ := join_nullity ih h
      · exact ⟨_, hw, .phi hfollows⟩
      · refine ⟨w, hw, hfollows w ?_⟩
        obtain ⟨v, hv⟩ := List.exists_mem_of_ne_nil _ hne
        obtain ⟨e, he, rfl⟩ := List.mem_map.mp hv
        obtain ⟨a, ha, hentry⟩ := List.mem_filterMap.mp he
        rw [← (hshared a ha e hentry).nullityOf_eq]
        exact hv

/-- The nullities of the entries, each with the edge that brings it. -/
theorem mem_items {b : Nat} {r : Int} {o : Obj} (h : N.join b r = some o) {x : Edge × Expr} :
    x ∈ (N.edges b r).zip (N.nullities b r) ↔
      ∃ a ∈ N.arrivals b r, ∃ e, N.entry b r a = some e ∧ x = (a.edge, nullityOf e) := by
  obtain ⟨objs, -, -, harrivals⟩ := join_entries h
  rw [nullities_eq harrivals, edges]
  generalize N.arrivals b r = arrivals at harrivals
  induction arrivals generalizing objs with
  | nil => simp
  | cons a arrivals ih =>
      cases objs with
      | nil => cases harrivals
      | cons y objs =>
          obtain ⟨hhead, htail⟩ := List.cons.inj harrivals
          rw [List.map_cons, List.map_cons, List.zip_cons_cons, List.mem_cons, ih objs htail]
          constructor
          · rintro (rfl | ⟨a', ha', e, he, rfl⟩)
            · exact ⟨a, by simp, y.val, hhead, rfl⟩
            · exact ⟨a', by simp [ha'], e, he, rfl⟩
          · rintro ⟨a', ha', e, he, rfl⟩
            rcases List.mem_cons.mp ha' with rfl | ha'
            · obtain rfl := Option.some.inj (hhead.symm.trans he)
              exact .inl rfl
            · exact .inr ⟨a', ha', e, he, rfl⟩

section Values

variable {maps : List MapInfo} {R : Reads maps} {m : ZModel} {outcome : Int → Bool}

theorem size_hit {p : PTR Expr} {blk : Option Nat} {st : Z3State maps} {t : ZBv}
    (h : exprToZ3 (some R) blk st p.hit = .ok t) : t.size = 8 := by
  unfold PTR.hit exprToZ3 at h
  dsimp only at h
  split at h
  · obtain ⟨key, -, h⟩ := Lib.bind_eq_ok.mp h
    obtain ⟨hit, -, h⟩ := Lib.bind_eq_ok.mp h
    obtain rfl := Except.ok.inj h
    rfl
  · obtain rfl := Except.ok.inj h
    rfl

/-- Every followed nullity has a term of at most 64 bits. -/
theorem Follows.lowers (hread : N.ReadsLookups R m outcome) {v : Expr} (h : N.Follows v) :
    ∃ t, exprToZ3 (some R) none R.base v = .ok t ∧ t.size ≤ 64 := by
  induction h with
  | null => exact ⟨_, rfl, by decide⟩
  | known => exact ⟨_, rfl, by decide⟩
  | lookup h =>
      obtain ⟨t, ht, -⟩ := hread _ _ h
      exact ⟨t, ht, by rw [size_hit ht]; decide⟩
  | @phi b r _ ih =>
      obtain ⟨t, ht⟩ : ∃ t, exprToZ3 (some R) none R.base (joinOfGroups some b r
          (groupEdges Expr.same ((N.edges b r).zip (N.nullities b r)))) = .ok t := by
        apply joinOfGroups_ok
        intro v hv
        obtain ⟨e, he⟩ := mem_of_distinct hv
        obtain ⟨t, ht, -⟩ := ih v (List.of_mem_zip he).2
        exact ⟨t, ht⟩
      refine ⟨t, ?_, ?_⟩
      · rw [Nest.phi, Block.nullJoin, N.num_block]
        exact ht
      · rw [exprToZ3_joinOfGroups] at ht
        obtain ⟨arms, -, hchain⟩ := Lib.bind_eq_ok.mp ht
        cases arms with
        | nil =>
            obtain rfl := Except.ok.inj hchain
            exact le_refl 64
        | cons x xs =>
            obtain rfl := Except.ok.inj hchain
            exact le_refl 64

/-- The nullity of a value is worth zero exactly when the value is null on the path. -/
theorem NullOnPath.follows (hread : N.ReadsLookups R m outcome) {e : Expr} {null : Bool}
    (h : N.NullOnPath R m outcome e null) :
    N.Arises e ∧ ∀ w t, Nullity e w → exprToZ3 (some R) none R.base w = .ok t →
      (t.toNat m = 0 ↔ null = true) := by
  induction h with
  | null size idx =>
      refine ⟨.null size idx, fun w t hw ht => ?_⟩
      cases hw with
      | null =>
          obtain rfl := Except.ok.inj ht
          simp [Bv.toNat, bvVal]
  | known h =>
      refine ⟨.known h, fun w t hw ht => ?_⟩
      rcases hw.checkedNull with ⟨-, rfl⟩ | hnone
      · obtain rfl := Except.ok.inj ht
        simp [Bv.toNat, bvVal]
      · rw [h] at hnone
        cases hnone
  | @lookup i p h =>
      refine ⟨.lookup h, fun w t hw ht => ?_⟩
      obtain ⟨hdirect, hnone, -⟩ := N.direct h
      obtain ⟨u, hu, houtcome⟩ := hread i p h
      rw [← hw.nullityOf_eq, (Nullity.lookup hnone hdirect).nullityOf_eq] at ht
      obtain rfl := Except.ok.inj (hu.symm.trans ht)
      rw [houtcome]
      simp
  | @view o null _ baseId copy ih =>
      refine ⟨.view ih.1 baseId copy, fun w t hw ht => ih.2 w t ?_ ht⟩
      obtain ⟨u, hu, -⟩ := ih.1.followed
      rw [← hw.nullityOf_eq, (hu.withView baseId copy).nullityOf_eq]
      exact hu
  | @join b r o a v null hargs h ha htaken honly hentry _ ih =>
      refine ⟨.join hargs h, fun w t hw ht => ?_⟩
      have hfollowed : ∀ a ∈ N.arrivals b r, ∀ v, a.value = some v → N.Followed v.val :=
        fun a ha v hv => (hargs a ha v hv).followed
      obtain ⟨u, hu, hfollowsu⟩ := Followed.entry (hfollowed a ha) hentry
      obtain ⟨tu, htu, hsize⟩ := hfollowsu.lowers hread
      have hnull := ih.2 u tu hu htu
      obtain ⟨hfollows, w', hw', rfl | ⟨-, hshared⟩⟩ := join_nullity hfollowed h
      · obtain rfl : w = N.phi b r := by rw [← hw.nullityOf_eq, hw'.nullityOf_eq]
        have hitem : (a.edge, u) ∈ (N.edges b r).zip (N.nullities b r) :=
          (mem_items h).mpr ⟨a, ha, v, hentry, by rw [hu.nullityOf_eq]⟩
        have hothers : ∀ x ∈ (N.edges b r).zip (N.nullities b r), R.taken m x.1 = true → x.2 = u := by
          intro x hx htaken'
          obtain ⟨a', ha', e, he, rfl⟩ := (mem_items h).mp hx
          have hedge : a'.edge = a.edge := by
            by_contra hne
            rw [honly a' ha' hne] at htaken'
            cases htaken'
          obtain rfl := N.one_arrival ha' ha hedge
          obtain rfl := Option.some.inj (hentry.symm.trans he)
          exact hu.nullityOf_eq
        obtain ⟨rep, hrep⟩ := takenAt_groupEdges_of_value (Expr.same_refl u)
          ⟨_, hitem, htaken⟩ hothers
        rw [Nest.phi, Block.nullJoin, N.num_block] at ht
        obtain ⟨tr, htr, hval⟩ := toNat_of_holdsAt R m some hrep ht
        have hru : rep = u := by
          obtain ⟨pre, g, post, hgroups, -, -, -, hrep | hsame, -⟩ := hrep
          · exact hrep
          · have hmem : rep ∈ distinct Expr.same ((N.edges b r).zip (N.nullities b r)) := by
              rw [distinct, hgroups]
              simp
            obtain ⟨e, he⟩ := mem_of_distinct hmem
            exact (hfollows rep (List.of_mem_zip he).2).eq_of_same hfollowsu hsame
        subst hru
        obtain rfl : tu = tr := Except.ok.inj (htu.symm.trans htr)
        rw [hval, Nat.mod_eq_of_lt (toNat_lt_of_size m hsize)]
        exact hnull
      · obtain rfl : w = w' := by rw [← hw.nullityOf_eq, hw'.nullityOf_eq]
        exact ih.2 w t (hshared a ha v hentry) ht

end Values

end Nest

/-- A pointer of a nest whose nullity is not decided is a lookup result or has a null
phi, which is worth zero exactly when the value on the taken path is null. -/
theorem null_phi_tracks_path (N : Nest) {maps : List MapInfo} (R : Reads maps) (m : ZModel)
    (outcome : Int → Bool) (hread : N.ReadsLookups R m outcome) {p : PTR Expr}
    (h : N.Arises (.ptr p)) (hnone : p.checkedNull = none) :
    p.DirectLookup ∨ ∃ phi, p.nullPhi = some phi ∧ ∀ blk st, ∃ t,
      exprToZ3 (some R) blk st phi = .ok t ∧
        ∀ null, N.NullOnPath R m outcome (.ptr p) null → (t.toNat m = 0 ↔ null = true) := by
  obtain ⟨v, hv, hfollows⟩ := h.followed
  rcases hv.undecided hnone with ⟨hdirect, -⟩ | hphi
  · exact .inl hdirect
  · obtain ⟨t, ht, -⟩ := hfollows.lowers hread
    refine .inr ⟨v, hphi, fun blk st => ⟨t, ?_, fun null hnull => ?_⟩⟩
    · cases hv with
      | known h => simp [hnone] at h
      | lookup _ hlookup =>
          rw [hlookup.noPhi] at hphi
          cases hphi
      | phi => exact ht
    · exact (hnull.follows hread).2 v t hv ht

/-- The arrivals that `mergePredecessors` joins: what each edge's predecessor holds. -/
def Block.arrivals (self : Block) (blocks : List Block) (held : Block → Option Obj) : List Arrival :=
  (self.predEdges blocks).map fun x => ⟨x.1, held x.2, edgeFact x.2 x.1.2⟩

/-- An edge names its predecessor, so it brings one value. -/
theorem Block.one_arrival {self : Block} {blocks : List Block} {held : Block → Option Obj}
    {x y : Arrival} (hx : x ∈ self.arrivals blocks held) (hy : y ∈ self.arrivals blocks held)
    (h : x.edge = y.edge) : x = y := by
  have hpred : ∀ z : Edge × Block, z ∈ self.predEdges blocks → blocks[z.1.1]? = some z.2 := by
    intro z hz
    obtain ⟨p, -, hp⟩ := List.mem_filterMap.mp hz
    obtain ⟨pb, hpb, rfl⟩ := Option.map_eq_some_iff.mp hp
    exact hpb
  obtain ⟨⟨e, pb⟩, hmem, rfl⟩ := List.mem_map.mp hx
  obtain ⟨⟨e', pb'⟩, hmem', rfl⟩ := List.mem_map.mp hy
  obtain rfl : e = e' := h
  have hblock : pb = pb' := Option.some.inj ((hpred _ hmem).symm.trans (hpred _ hmem'))
  rw [hblock]

section NullOrLookup

/-- The result of a lookup at instruction 5. -/
def unchecked : PTR Expr := { lookedUp 5 0 with checkedNull := none }

/-- Block 3 joins a null constant with the result of the lookup. -/
def nullOrLookup : Nest where
  lookup i := if i = 5 then some unchecked else none
  direct h := by
    split at h
    · rename_i hi
      obtain rfl := Option.some.inj h
      subst hi
      exact ⟨⟨rfl, rfl, rfl, rfl, rfl⟩, rfl, rfl⟩
    · cases h
  block b _ := { num := b, start := 0, «end» := 0 }
  num_block _ _ := rfl
  arrivals _ _ :=
    [⟨(1, .fall), some ⟨.instr 2 0, .num 0 8 (-1)⟩, none⟩,
     ⟨(2, .fall), some ⟨.instr 5 0, .ptr unchecked⟩, none⟩]
  one_arrival hx hy h := by
    simp only [List.mem_cons, List.not_mem_nil, or_false] at hx hy
    rcases hx with rfl | rfl <;> rcases hy with rfl | rfl <;> first | rfl | cases h

theorem null_phi_tracks_path_null_or_lookup :
    ∃ p phi t, ptrIn (nullOrLookup.join 3 0) = some p ∧ p.nullPhi = some phi ∧
      exprToZ3 (some fromBlockOne) none (makeInitState wideMap) phi = .ok t ∧
        t.toNat (Smt.Model.ofNats fun _ => none) = 0 := by
  have hread : nullOrLookup.ReadsLookups fromBlockOne (Smt.Model.ofNats fun _ => none)
      fun _ => false := by
    intro i p h
    simp only [nullOrLookup] at h
    split at h
    · obtain rfl := Option.some.inj h
      exact ⟨_, rfl, iff_of_true rfl rfl⟩
    · cases h
  have hargs : ∀ a ∈ nullOrLookup.arrivals 3 0, ∀ v, a.value = some v → nullOrLookup.Arises v.val := by
    intro a ha v hv
    simp only [nullOrLookup, List.mem_cons, List.not_mem_nil, or_false] at ha
    rcases ha with rfl | rfl
    · obtain rfl := Option.some.inj hv
      exact .null 8 (-1)
    · obtain rfl := Option.some.inj hv
      exact .lookup (i := 5) rfl
  obtain ⟨org, p, hjoin, hnone, hsome⟩ : ∃ org p, nullOrLookup.join 3 0 = some ⟨org, .ptr p⟩ ∧
      p.checkedNull = none ∧ p.nullPhi.isSome := ⟨_, _, rfl, rfl, rfl⟩
  have harises : nullOrLookup.Arises (.ptr p) := .join hargs hjoin
  rcases null_phi_tracks_path nullOrLookup fromBlockOne (Smt.Model.ofNats fun _ => none)
    (fun _ => false) hread harises hnone with hdirect | ⟨phi, hphi, hworth⟩
  · rw [hdirect.noPhi] at hsome
    cases hsome
  · obtain ⟨t, ht, hnull⟩ := hworth none (makeInitState wideMap)
    refine ⟨p, phi, t, by rw [hjoin]; rfl, hphi, ht, (hnull true ?_).mpr rfl⟩
    have honly : ∀ a' ∈ nullOrLookup.arrivals 3 0, a'.edge ≠ (1, .fall) →
        fromBlockOne.taken (Smt.Model.ofNats fun _ => none) a'.edge = false := by
      intro a' ha' hne
      simp only [nullOrLookup, List.mem_cons, List.not_mem_nil, or_false] at ha'
      rcases ha' with rfl | rfl
      · exact absurd rfl hne
      · rfl
    exact .join hargs hjoin (List.mem_cons_self ..) rfl honly rfl (.null 8 (-1))

end NullOrLookup

end Hornet
