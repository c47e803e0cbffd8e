import Hornet.Arith.Cells
import Hornet.Track.Join
import Hornet.Track.Guards
import Hornet.Lib.Fold
import Hornet.Lib.Group
import Mathlib.Data.Nat.ModEq
import Mathlib.Tactic.NormNum
import Mathlib.Tactic.Positivity

/-!
The value of a join. Entries that are equal share one arm, whose guard is the
disjunction of the guards of their edges, and every arm is lowered at 64 bits.
When one incoming edge is taken the join has the low 64 bits of the value that
represents the entry of that edge.
-/

namespace Hornet

open Smt

section Groups

variable {α : Type} (eq : α → α → Bool)

/-- The values that a join lists, in order of their first occurrence. -/
def distinct (items : List (Edge × α)) : List α := (groupEdges eq items).map (·.1)

variable {eq}

/-- Whether one of the edges of a group is taken. -/
def anyTaken (T : Edge → Bool) (es : List Edge) : Bool := es.any T

theorem insertGroup_eq_addGroup (e : Edge) (a : α) (gs : List (α × List Edge)) :
    insertGroup eq e a gs = Lib.addGroup eq (· ++ ·) [e] a gs := by
  induction gs with
  | nil => rfl
  | cons g gs ih => simp only [insertGroup, Lib.addGroup, ih]

theorem groupEdges_eq_groups (items : List (Edge × α)) :
    groupEdges eq items = Lib.groups eq (· ++ ·) (fun x => [x.1]) (·.2) items := by
  unfold groupEdges Lib.groups
  simp only [insertGroup_eq_addGroup]

/-- When one edge is taken, its group is represented by the first distinct value
that equals the entry of the edge. -/
theorem takenAt_groupEdges {T : Edge → Bool} {pre post : List (Edge × α)} {e : Edge} {a : α}
    (he : T e = true) (hpre : ∀ x ∈ pre, T x.1 = false)
    (hpost : ∀ x ∈ post, T x.1 = false) :
    ∃ rep, Lib.HoldsAt eq (anyTaken T) a rep (groupEdges eq (pre ++ (e, a) :: post)) := by
  rw [groupEdges_eq_groups]
  have hsingle : ∀ x : Edge × α, anyTaken T [x.1] = T x.1 := by simp [anyTaken]
  have hjoin : ∀ es es', anyTaken T (es ++ es') = (anyTaken T es || anyTaken T es') := by
    simp [anyTaken]
  exact Lib.holdsAt_groups hjoin ((hsingle (e, a)).trans he) (fun x hx => (hsingle x).trans (hpre x hx))
    fun x hx => (hsingle x).trans (hpost x hx)

/-- The same where several entries belong to the taken edges, all with one value. -/
theorem takenAt_groupEdges_of_value {T : Edge → Bool} {items : List (Edge × α)} {a : α}
    (hrefl : eq a a = true) (hex : ∃ x ∈ items, T x.1 = true)
    (hall : ∀ x ∈ items, T x.1 = true → x.2 = a) :
    ∃ rep, Lib.HoldsAt eq (anyTaken T) a rep (groupEdges eq items) := by
  rw [groupEdges_eq_groups]
  have hsingle : ∀ x : Edge × α, anyTaken T [x.1] = T x.1 := by simp [anyTaken]
  have hjoin : ∀ es es', anyTaken T (es ++ es') = (anyTaken T es || anyTaken T es') := by
    simp [anyTaken]
  apply Lib.holdsAt_groups_of_value hjoin hrefl
  · obtain ⟨x, hx, htaken⟩ := hex
    exact ⟨x, hx, (hsingle x).trans htaken⟩
  · intro x hx htaken
    exact hall x hx ((hsingle x).symm.trans htaken)

/-- A join lists values of its entries. -/
theorem mem_of_distinct {items : List (Edge × α)} {a : α} (h : a ∈ distinct eq items) :
    ∃ e, (e, a) ∈ items := by
  unfold distinct at h
  rw [groupEdges_eq_groups] at h
  obtain ⟨g, hg, rfl⟩ := List.mem_map.mp h
  obtain ⟨⟨e, b⟩, hy, hb⟩ := Lib.rep_of_mem_groups hg
  exact ⟨e, hb ▸ hy⟩

end Groups

section Arms

variable {maps : List MapInfo} {α : Type} {eq : α → α → Bool} (R : Reads maps) (m : ZModel)
  (value : α → Option Expr)

/-- Whether an edge is taken. -/
def Reads.taken (e : Edge) : Bool := (R.guardOf e).eval m

/-- The arms of a join whose entries have terms. -/
theorem phiArms_ok {gs : List (α × List Edge)}
    (hlow : ∀ g ∈ gs, ∃ t, someToZ3 (some R) none R.base (value g.1) = .ok t) :
    ∃ arms, phiArms R (gs.map fun g => value g.1) (gs.map (·.2)) = .ok arms := by
  induction gs with
  | nil => exact ⟨[], rfl⟩
  | cons g gs ih =>
      obtain ⟨arms, harms⟩ := ih fun x hx => hlow x (by simp [hx])
      obtain ⟨t, ht⟩ := hlow g (by simp)
      rw [List.map_cons, List.map_cons, phiArms]
      split
      · exact ⟨arms, harms⟩
      · exact ⟨_, by rw [ht, harms]; rfl⟩

/-- The taken group has an arm, and no arm before it is taken. -/
theorem phiArms_taken {a rep : α} {gs : List (α × List Edge)}
    (h : Lib.HoldsAt eq (anyTaken (R.taken m)) a rep gs) {arms : List (Guard × ZTerm (.bv 64))}
    (harms : phiArms R (gs.map fun g => value g.1) (gs.map (·.2)) = .ok arms) :
    ∃ t pre g post, someToZ3 (some R) none R.base (value rep) = .ok t ∧
      arms = pre ++ (g, resize t 64) :: post ∧ g.eval m = true ∧
      ∀ y ∈ pre, y.1.eval m = false := by
  obtain ⟨pre, es, post, rfl, hes, hpre, -, -, -⟩ := h
  have heval : ∀ fs : List Edge, (Guard.orAll (fs.map R.guardOf)).eval m = anyTaken (R.taken m) fs :=
    fun fs => by
      rw [Guard.eval_orAll, List.any_map]
      rfl
  induction pre generalizing arms with
  | nil =>
      rw [List.nil_append, List.map_cons, List.map_cons, phiArms] at harms
      split at harms
      · rename_i hff
        have htrue := heval es
        rw [hff, hes] at htrue
        cases htrue
      · obtain ⟨t, ht, hrest⟩ := Lib.bind_eq_ok.mp harms
        obtain ⟨rest, -, hcons⟩ := Lib.bind_eq_ok.mp hrest
        obtain rfl := Except.ok.inj hcons
        exact ⟨t, [], _, rest, ht, rfl, (heval es).trans hes, by simp⟩
  | cons g pre ih =>
      rw [List.cons_append, List.map_cons, List.map_cons, phiArms] at harms
      have hpre' : Lib.NoneHolds (anyTaken (R.taken m)) pre := fun x hx => hpre x (by simp [hx])
      split at harms
      · exact ih harms hpre'
      · obtain ⟨u, -, hrest⟩ := Lib.bind_eq_ok.mp harms
        obtain ⟨rest, hinner, hcons⟩ := Lib.bind_eq_ok.mp hrest
        obtain rfl := Except.ok.inj hcons
        obtain ⟨t, before, k, after, ht, rfl, hk, hbefore⟩ := ih hinner hpre'
        refine ⟨t, _ :: before, k, after, ht, rfl, hk, ?_⟩
        intro y hy
        rcases List.mem_cons.mp hy with rfl | hy
        · exact (heval g.2).trans (hpre g (by simp))
        · exact hbefore y hy

/-- The join that lists the groups. -/
def joinOfGroups (blockIdx : Nat) (regNum : Int) (gs : List (α × List Edge)) : Expr :=
  joinOf blockIdx regNum (gs.map fun g => (value g.1, g.2))

theorem exprToZ3_joinOfGroups (blk : Option Nat) (st : Z3State maps) (blockIdx : Nat)
    (regNum : Int) (gs : List (α × List Edge)) :
    exprToZ3 (some R) blk st (joinOfGroups value blockIdx regNum gs) = (do
      match ← phiArms R (gs.map fun g => value g.1) (gs.map (·.2)) with
      | [] => pure ⟨64, .var (.phi blockIdx regNum) (.bv 64)⟩
      | x :: xs => pure ⟨64, ifChain x xs⟩) := by
  unfold joinOfGroups joinOf
  rw [exprToZ3, List.map_map, List.map_map]
  rfl

/-- A join whose entries have terms has one. -/
theorem joinOfGroups_ok {items : List (Edge × α)}
    (hlow : ∀ x ∈ distinct eq items, ∃ t, someToZ3 (some R) none R.base (value x) = .ok t)
    (blk : Option Nat) (st : Z3State maps) (blockIdx : Nat) (regNum : Int) :
    ∃ t, exprToZ3 (some R) blk st
      (joinOfGroups value blockIdx regNum (groupEdges eq items)) = .ok t := by
  obtain ⟨arms, harms⟩ := phiArms_ok R value fun g hg => hlow g.1 (List.mem_map_of_mem hg)
  rw [exprToZ3_joinOfGroups, harms]
  cases arms with
  | nil => exact ⟨_, rfl⟩
  | cons x xs => exact ⟨_, rfl⟩

/-- A join has the low 64 bits of the value that represents the group of the taken
edges. -/
theorem toNat_of_holdsAt {items : List (Edge × α)} {a rep : α}
    (hrep : Lib.HoldsAt eq (anyTaken (R.taken m)) a rep (groupEdges eq items))
    {blk : Option Nat} {st : Z3State maps} {blockIdx : Nat} {regNum : Int} {t : ZBv}
    (ht : exprToZ3 (some R) blk st
      (joinOfGroups value blockIdx regNum (groupEdges eq items)) = .ok t) :
    ∃ tr, someToZ3 (some R) none R.base (value rep) = .ok tr ∧ t.toNat m = tr.toNat m % 2 ^ 64 := by
  rw [exprToZ3_joinOfGroups] at ht
  obtain ⟨arms, harms, hchain⟩ := Lib.bind_eq_ok.mp ht
  obtain ⟨tr, before, g, after, htr, hsplit, hg, hbefore⟩ := phiArms_taken R m value hrep harms
  refine ⟨tr, htr, ?_⟩
  cases arms with
  | nil => simp at hsplit
  | cons x xs =>
      obtain rfl := Except.ok.inj hchain
      rw [Bv.toNat_mk, eval_ifChain m hsplit hg hbefore, toNat_resize]

/-- When one edge is taken, a join has the low 64 bits of the representative of its
entry. -/
theorem toNat_joinOfGroups {items pre post : List (Edge × α)} {e : Edge} {a : α}
    (hitems : items = pre ++ (e, a) :: post) (he : R.taken m e = true) (hrefl : eq a a = true)
    (hpre : ∀ x ∈ pre, R.taken m x.1 = false) (hpost : ∀ x ∈ post, R.taken m x.1 = false)
    {blk : Option Nat} {st : Z3State maps} {blockIdx : Nat} {regNum : Int} {t : ZBv}
    (ht : exprToZ3 (some R) blk st
      (joinOfGroups value blockIdx regNum (groupEdges eq items)) = .ok t) :
    ∃ rep tr, (distinct eq items).find? (eq · a) = some rep ∧
      someToZ3 (some R) none R.base (value rep) = .ok tr ∧ t.toNat m = tr.toNat m % 2 ^ 64 := by
  subst hitems
  obtain ⟨rep, hrep⟩ := takenAt_groupEdges he hpre hpost
  obtain ⟨tr, htr, hval⟩ := toNat_of_holdsAt R m value hrep ht
  exact ⟨rep, tr, hrep.find? hrefl, htr, hval⟩

end Arms

namespace Block

variable (self : Block) (predEdges : List Edge) (entries : List (Option Obj)) (regNum : Int)
  (predConds : List (Option EdgeFact))

/-- The entries that are joined with each other, after the facts of the edges
are applied: where pointers meet null constants, the pointers. -/
def joinedEntries : Option (List (Edge × Obj)) :=
  match (self.resolveEntries regNum entries.length predConds entries).mapM id with
  | none => none
  | some objs =>
      let isPtr := objs.map (·.val.isPTR)
      if isPtr.any id && !isPtr.all id then
        if objs.any (fun o => !o.val.isPTR && !isNullConst o.val) then none
        else some ((predEdges.zip objs).filter (·.2.val.isPTR))
      else some (predEdges.zip objs)

variable {self predEdges entries regNum predConds}

/-- What `mergeEntry` does with the entries it joins. -/
theorem mergeEntry_of_joined (hlen : predEdges.length = entries.length) {zs : List (Edge × Obj)}
    (hzs : self.joinedEntries predEdges entries regNum predConds = some zs) :
    let merged := self.mergeUniform (zs.map (·.1)) (zs.map (·.2)) regNum
    self.mergeEntry predEdges entries regNum predConds = merged ∨
      (∀ z ∈ zs, z.2.val.isPTR = true) ∧ ∃ objs,
        self.mergeEntry predEdges entries regNum predConds =
          merged.2.mergeNulls predEdges objs regNum merged.1 := by
  intro merged
  unfold joinedEntries at hzs
  split at hzs
  · cases hzs
  · rename_i objs hobjs
    have hres := Lib.eq_map_of_mapM_id hobjs
    have hlen' : predEdges.length = objs.length := by
      have hcount := congrArg List.length hres
      simp only [resolveEntries, List.length_map, List.length_zipIdx] at hcount
      rw [hlen, hcount]
    have hany : (objs.map (·.val.isPTR)).any id = objs.any (·.val.isPTR) := by simp
    have hall : (objs.map (·.val.isPTR)).all id = objs.all (·.val.isPTR) := by simp
    dsimp only at hzs
    rw [hany, hall] at hzs
    rw [self.mergeEntry_resolved regNum hres]
    split at hzs
    · rename_i hmixed
      rw [if_pos hmixed]
      split at hzs
      · cases hzs
      · rename_i hnulls
        obtain rfl := Option.some.inj hzs
        rw [if_neg hnulls]
        exact .inr ⟨fun z hz => (List.mem_filter.mp hz).2, objs, rfl⟩
    · rename_i huniform
      obtain rfl := Option.some.inj hzs
      rw [if_neg huniform]
      left
      simp only [merged]
      rw [List.map_fst_zip (le_of_eq hlen'), List.map_snd_zip (ge_of_eq hlen')]

/-- Scalars that are neither all one constant nor all one object. -/
def JoinsScalars (objs : List Obj) : Prop :=
  (∀ o ∈ objs, o.val.isPTR = false) ∧ (¬ ∃ n, ∀ o ∈ objs, o.val.num? = some n) ∧
    ∃ first ∈ objs.head?, ∃ o ∈ objs, o.org ≠ first.org

/-- Pointers to one place of the values of a map, not all of one lookup. -/
def JoinsKeys (ptrs : List (PTR Expr)) : Prop :=
  ∃ p ∈ ptrs.head?, (∀ q ∈ ptrs, q.ptrType = .MAP_VALUE ∧ q.mapId = p.mapId ∧ q.off = p.off) ∧
    ∃ q ∈ ptrs, q.mapKeyId ≠ p.mapKeyId

/-- Whether two pointers come from one lookup. -/
def sameKey (p q : PTR Expr) : Bool := decide (p.mapKeyId = q.mapKeyId)

theorem sameKey_refl (p : PTR Expr) : sameKey p p = true := decide_eq_true rfl

variable (self)

theorem mergeUniform_scalars {edges : List Edge} {objs : List Obj} (h : JoinsScalars objs) :
    (self.mergeUniform edges objs regNum).1 = some ⟨.merge self.num regNum,
      joinOfGroups some self.num regNum
        (groupEdges Expr.same (edges.zip (objs.map (·.val))))⟩ := by
  obtain ⟨hscalar, hconst, first, hfirst, o, ho, horg⟩ := h
  cases objs with
  | nil => cases ho
  | cons x xs =>
      obtain rfl := Option.some.inj hfirst
      have hjoin : mergeScalar.joinScalars self edges x (x :: xs) regNum =
          (some ⟨.merge self.num regNum, joinOfGroups some self.num regNum
            (groupEdges Expr.same (edges.zip ((x :: xs).map (·.val))))⟩,
           self.addSource (joinOfGroups some self.num regNum
            (groupEdges Expr.same (edges.zip ((x :: xs).map (·.val)))))) := by
        have hany : (x :: xs).any (·.org ≠ x.org) = true :=
          List.any_eq_true.mpr ⟨o, ho, decide_eq_true horg⟩
        unfold mergeScalar.joinScalars
        rw [if_pos hany]
        rfl
      have hptr : ((x :: xs).any (·.val.isPTR)) = false := by
        rw [List.any_eq_false]
        intro y hy
        simp [hscalar y hy]
      have hmerge : self.mergeUniform edges (x :: xs) regNum =
          self.mergeScalar edges x (x :: xs) regNum := by
        have hx := hscalar x (by simp)
        unfold mergeUniform
        simp only [hptr]
        cases hval : x.val with
        | ptr p =>
            rw [hval] at hx
            cases hx
        | _ => rfl
      rw [hmerge]
      unfold mergeScalar
      split
      · rename_i n hn
        have hall : ((x :: xs).all (·.val.num? = some n)) = false := by
          rw [← Bool.not_eq_true, List.all_eq_true]
          intro hall
          exact hconst ⟨n, fun y hy => of_decide_eq_true (hall y hy)⟩
        rw [hall, if_neg (by simp), hjoin]
      · rw [hjoin]

theorem mapM_ptr?_cons {x : Obj} {xs : List Obj} {ptrs : List (PTR Expr)}
    (h : (x :: xs).mapM (·.val.ptr?) = some ptrs) :
    ∃ p ps, x.val = .ptr p ∧ ptrs = p :: ps := by
  rw [List.mapM_cons] at h
  obtain ⟨p, hp, hrest⟩ := Option.bind_eq_some_iff.mp h
  obtain ⟨ps, -, hcons⟩ := Option.bind_eq_some_iff.mp hrest
  obtain rfl := Option.some.inj hcons
  refine ⟨p, ps, ?_, rfl⟩
  cases hx : x.val with
  | ptr q =>
      rw [hx] at hp
      exact congrArg _ (Option.some.inj hp)
  | _ =>
      rw [hx] at hp
      cases hp

/-- The map key of the pointer that an entry holds. -/
def keyIn (o : Option Obj) : Option (Option Expr) := fieldIn PTR.mapKey o

theorem mergeUniform_keys {edges : List Edge} {objs : List Obj} {ptrs : List (PTR Expr)}
    (hptrs : objs.mapM (·.val.ptr?) = some ptrs) (h : JoinsKeys ptrs) :
    keyIn (self.mergeUniform edges objs regNum).1 = some (some
      (joinOfGroups PTR.mapKey self.num regNum (groupEdges sameKey (edges.zip ptrs)))) := by
  obtain ⟨p, hp, hplace, q, hq, hkey⟩ := h
  cases objs with
  | nil =>
      obtain rfl := Option.some.inj hptrs
      cases hq
  | cons x xs =>
      obtain ⟨p', ps, hx, rfl⟩ := mapM_ptr?_cons hptrs
      obtain rfl := Option.some.inj hp
      have htype : (p' :: ps).any (·.ptrType ≠ .MAP_VALUE) = false := by
        rw [List.any_eq_false]
        intro r hr
        simp [(hplace r hr).1]
      have hcell : (p' :: ps).any (fun r => r.mapId ≠ p'.mapId || r.off ≠ p'.off) = false := by
        rw [List.any_eq_false]
        intro r hr
        simp [(hplace r hr).2.1, (hplace r hr).2.2]
      have hkeys : (p' :: ps).all (·.mapKeyId = p'.mapKeyId) = false := by
        rw [← Bool.not_eq_true, List.all_eq_true]
        intro hall
        exact hkey (of_decide_eq_true (hall q hq))
      unfold mergeUniform
      simp only [hx, hptrs, (hplace p' (by simp)).1, htype, mergeMapValue, hcell, hkeys,
        Bool.false_eq_true, if_false]
      exact fieldIn_stampNullPhi (f := PTR.mapKey) _ edges regNum (fun _ _ => rfl) _ _

end Block

section Uses

variable {maps : List MapInfo} (R : Reads maps) (m : ZModel) {α : Type}

/-- The edge of `a` is the only one of `items` that is taken. -/
def OnlyTaken (items : List (Edge × α)) (a : α) : Prop :=
  ∃ pre e post, items = pre ++ (e, a) :: post ∧ R.taken m e = true ∧
    ∀ x ∈ pre ++ post, R.taken m x.1 = false

/-- Used at `width` bits, the term `t` of a join has the number of `ta`. -/
def UsedAs (t ta : ZBv) (width : Nat) : Prop :=
  ((resize t width).eval m).toNat = ta.toNat m

variable (eq : α → α → Bool) (value : α → Option Expr)

/-- The taken value `ta` fits into 64 bits, and the entry that stands for it in
the join agrees with it on the bits that are used. -/
def Fits (items : List (Edge × α)) (a : α) (ta : ZBv) (width : Nat) : Prop :=
  ta.toNat m < 2 ^ 64 ∧
    ∃ rep ∈ (distinct eq items).find? (eq · a), ∃ tr, someToZ3 (some R) none R.base (value rep) = .ok tr ∧
      tr.toNat m ≡ ta.toNat m [MOD 2 ^ min 64 width]

/-- The join `j` of `items` has a term, which is worth the value of the taken
edge exactly where that value fits. The value is lowered where the edge leaves
its predecessor, in any state. -/
def SelectsTaken (items : List (Edge × α)) (j : Expr) : Prop :=
  ((∀ a ∈ distinct eq items, ∃ t, someToZ3 (some R) none R.base (value a) = .ok t) →
    ∀ blk st, ∃ t, exprToZ3 (some R) blk st j = .ok t) ∧
  ∀ a, OnlyTaken R m items a → ∀ blk st t, exprToZ3 (some R) blk st j = .ok t →
    ∀ pred sigma ta width, someToZ3 (some R) pred sigma (value a) = .ok ta → ta.size ≤ width →
      (UsedAs m t ta width ↔ Fits R m eq value items a ta width)

variable {R m eq value}

theorem usedAs_iff {t ta : ZBv} {n width : Nat} (ht : t.toNat m = n % 2 ^ 64)
    (hwidth : ta.size ≤ width) :
    UsedAs m t ta width ↔ ta.toNat m < 2 ^ 64 ∧ n ≡ ta.toNat m [MOD 2 ^ min 64 width] := by
  have hlt : ta.toNat m < 2 ^ width :=
    lt_of_lt_of_le (ta.toNat_lt m) (Nat.pow_le_pow_right (by omega) hwidth)
  have huse : ((resize t width).eval m).toNat = n % 2 ^ min 64 width := by
    rw [toNat_resize, ht]
    rcases Nat.le_total 64 width with h | h
    · rw [Nat.min_eq_left h]
      exact Nat.mod_eq_of_lt (lt_of_lt_of_le (Nat.mod_lt _ (by positivity))
        (Nat.pow_le_pow_right (by omega) h))
    · rw [Nat.min_eq_right h]
      exact Nat.mod_mod_of_dvd _ (Nat.pow_dvd_pow 2 h)
  have hfits : ta.toNat m < 2 ^ 64 ↔ ta.toNat m < 2 ^ min 64 width := by
    rcases Nat.le_total 64 width with h | h
    · rw [Nat.min_eq_left h]
    · rw [Nat.min_eq_right h]
      exact ⟨fun _ => hlt, fun _ => lt_of_lt_of_le hlt (Nat.pow_le_pow_right (by omega) h)⟩
  unfold UsedAs
  rw [huse, hfits]
  constructor
  · intro h
    have hbound : ta.toNat m < 2 ^ min 64 width := h ▸ Nat.mod_lt _ (by positivity)
    exact ⟨hbound, h.trans (Nat.mod_eq_of_lt hbound).symm⟩
  · rintro ⟨hbound, hmod⟩
    exact Eq.trans hmod (Nat.mod_eq_of_lt hbound)

theorem selectsTaken_joinOfGroups (hrefl : ∀ a, eq a a = true) (items : List (Edge × α))
    (blockIdx : Nat) (regNum : Int) :
    SelectsTaken R m eq value items
      (joinOfGroups value blockIdx regNum (groupEdges eq items)) := by
  constructor
  · intro hlow blk st
    exact joinOfGroups_ok R value hlow blk st blockIdx regNum
  · rintro a ⟨pre, e, post, hitems, he, hother⟩ blk st t ht pred sigma ta width hta hwidth
    obtain ⟨rep, tr, hrep, htr, hval⟩ := toNat_joinOfGroups R m value hitems he (hrefl a)
      (fun x hx => hother x (by simp [hx])) (fun x hx => hother x (by simp [hx])) ht
    rw [usedAs_iff hval hwidth]
    unfold Fits
    constructor
    · rintro ⟨hlt, hmod⟩
      exact ⟨hlt, rep, hrep, tr, htr, hmod⟩
    · rintro ⟨hlt, rep', hrep', tr', htr', hmod⟩
      obtain rfl := Option.some.inj (hrep.symm.trans hrep')
      obtain rfl := Except.ok.inj (htr.symm.trans htr')
      exact ⟨hlt, hmod⟩

end Uses

/-- A join of scalars or map keys is worth the value of the taken edge exactly
when that value fits into the 64 bits of a join value and the entry that stands
for it, the first equal one, has the same bits. -/
theorem join_selects_taken_iff (self : Block) (predEdges : List Edge) (entries : List (Option Obj))
    (regNum : Int) (predConds : List (Option EdgeFact)) (hlen : predEdges.length = entries.length)
    {zs : List (Edge × Obj)}
    (hzs : self.joinedEntries predEdges entries regNum predConds = some zs)
    {maps : List MapInfo} (R : Reads maps) (m : ZModel) :
    (Block.JoinsScalars (zs.map (·.2)) →
      ∃ o, (self.mergeEntry predEdges entries regNum predConds).1 = some o ∧
        SelectsTaken R m Expr.same some (zs.map fun z => (z.1, z.2.val)) o.val) ∧
    (∀ ptrs, (zs.map (·.2)).mapM (·.val.ptr?) = some ptrs → Block.JoinsKeys ptrs →
      ∃ p j, ptrIn (self.mergeEntry predEdges entries regNum predConds).1 = some p ∧
        p.mapKey = some j ∧
        SelectsTaken R m Block.sameKey PTR.mapKey ((zs.map (·.1)).zip ptrs) j) := by
  constructor
  · intro hjoins
    have hzip : (zs.map (·.1)).zip ((zs.map (·.2)).map (·.val)) =
        zs.map fun z => (z.1, z.2.val) := by
      rw [List.map_map, List.zip_map']
      rfl
    have hmerge : (self.mergeUniform (zs.map (·.1)) (zs.map (·.2)) regNum).1 = _ :=
      self.mergeUniform_scalars hjoins
    rw [hzip] at hmerge
    rcases Block.mergeEntry_of_joined hlen hzs with heq | ⟨hptrs, -⟩
    · refine ⟨_, heq ▸ hmerge, ?_⟩
      exact selectsTaken_joinOfGroups Expr.same_refl _ _ _
    · obtain ⟨hscalar, -, first, hfirst, -⟩ := hjoins
      have hmem := List.mem_of_mem_head? hfirst
      obtain ⟨z, hz, rfl⟩ := List.mem_map.mp hmem
      have hz' := hptrs z hz
      rw [hscalar _ hmem] at hz'
      cases hz'
  · intro ptrs hptrs hjoins
    have hmerge : Block.keyIn (self.mergeUniform (zs.map (·.1)) (zs.map (·.2)) regNum).1 = _ :=
      self.mergeUniform_keys hptrs hjoins
    have hkey : Block.keyIn (self.mergeEntry predEdges entries regNum predConds).1 = some (some
        (joinOfGroups PTR.mapKey self.num regNum
          (groupEdges Block.sameKey ((zs.map (·.1)).zip ptrs)))) := by
      rcases Block.mergeEntry_of_joined hlen hzs with heq | ⟨-, objs, heq⟩
      · rw [heq]
        exact hmerge
      · rw [heq]
        exact (Block.fieldIn_mergeNulls _ predEdges regNum (fun _ _ => rfl) (fun _ _ _ => rfl)
          objs _).trans hmerge
    obtain ⟨p, hp, hpkey⟩ := Option.map_eq_some_iff.mp hkey
    refine ⟨p, _, hp, hpkey, ?_⟩
    exact selectsTaken_joinOfGroups Block.sameKey_refl _ _ _

section WideKeys

/-- A map whose keys have two words. -/
def wideMap : List MapInfo := [⟨"flows", 1, 16, 8, 4⟩]

/-- Hooks that leave every read to the state, when block 1 is left for the join. -/
def fromBlockOne : Reads wideMap where
  readPkt _ := pure none
  readMap _ := pure none
  readBss _ := pure none
  readPresent _ k _ _ := pure (.select (.var (.present 0) _) k)
  guardOf e := if e.1 = 1 then .tt else .ff
  base := makeInitState wideMap

/-- A non-null value that was looked up at `idx` under a key of two words. -/
def lookedUp (idx : Nat) (high : Int) : PTR Expr :=
  { ptrType := .MAP_VALUE, baseId := some idx, mapId := some 0, mapKeyId := some idx
    mapKey := some (.byteSeq [some (.num 0 8 (-1)), some (.num high 8 (-1))] 16 0) }

/-- The two edges bring values under the keys `high * 2 ^ 64` and 0. -/
def twoLookups (high : Int) : List (Edge × PTR Expr) :=
  [((1, .fall), lookedUp 5 high), ((2, .fall), lookedUp 9 0)]

/-- The values as the objects of a register. -/
def objectsOf (xs : List (Edge × PTR Expr)) : List (Edge × Obj) :=
  xs.map fun x => (x.1, ⟨.instr x.1.1 0, .ptr x.2⟩)

/-- The block that joins the two lookups. -/
def lookupJoin : Block := { num := 3, start := 10, «end» := 12 }

def mergedLookup (high : Int) : Option (PTR Expr) :=
  ptrIn (lookupJoin.mergeEntry ((objectsOf (twoLookups high)).map (·.1))
    ((objectsOf (twoLookups high)).map fun x => some x.2) 0 []).1

/-- The edge from block 1 brings a value under the key 7, the other one under the key 9. -/
def smallLookups : List (Edge × PTR Expr) :=
  [((1, .fall), { lookedUp 5 0 with mapKey := some (.num 7 16 (-1)) }),
    ((2, .fall), { lookedUp 9 0 with mapKey := some (.num 9 16 (-1)) })]

/-- The join selects the key 7. -/
theorem join_selects_taken_iff_two_lookups :
    ∃ p j t, ptrIn (lookupJoin.mergeEntry ((objectsOf smallLookups).map (·.1))
        ((objectsOf smallLookups).map fun x => some x.2) 0 []).1 = some p ∧ p.mapKey = some j ∧
      SelectsTaken fromBlockOne (Smt.Model.ofNats fun _ => none) Block.sameKey PTR.mapKey
        smallLookups j ∧
      exprToZ3 (some fromBlockOne) none (makeInitState wideMap) j = .ok t ∧
      t.toNat (Smt.Model.ofNats fun _ => none) = 7 := by
  have hjoined : lookupJoin.joinedEntries ((objectsOf smallLookups).map (·.1))
      ((objectsOf smallLookups).map fun x => some x.2) 0 [] =
      some (objectsOf smallLookups) := rfl
  have hptrs : ((objectsOf smallLookups).map (·.2)).mapM (·.val.ptr?) =
      some (smallLookups.map (·.2)) := rfl
  have hjoins : Block.JoinsKeys (smallLookups.map (·.2)) :=
    ⟨_, rfl, by simp [smallLookups, lookedUp], _, List.mem_cons_of_mem _ (List.mem_singleton.mpr rfl),
      by simp [lookedUp]⟩
  obtain ⟨p, j, hp, hkey, hselects⟩ := (join_selects_taken_iff lookupJoin
    ((objectsOf smallLookups).map (·.1)) ((objectsOf smallLookups).map fun x => some x.2) 0 [] rfl
    hjoined fromBlockOne (Smt.Model.ofNats fun _ => none)).2 (smallLookups.map (·.2)) hptrs hjoins
  obtain ⟨q, i, hq, hqkey, hlowered⟩ : ∃ q i,
      ptrIn (lookupJoin.mergeEntry ((objectsOf smallLookups).map (·.1))
        ((objectsOf smallLookups).map fun x => some x.2) 0 []).1 = some q ∧ q.mapKey = some i ∧
      exprToZ3 (some fromBlockOne) none (makeInitState wideMap) i =
        .ok ⟨64, resize ⟨16 * 8, bvVal 7 (16 * 8)⟩ 64⟩ := ⟨_, _, rfl, rfl, rfl⟩
  obtain rfl := Option.some.inj (hp.symm.trans hq)
  obtain rfl := Option.some.inj (hkey.symm.trans hqkey)
  refine ⟨p, j, _, hp, hkey, hselects, hlowered, ?_⟩
  decide +kernel

/-- The join keeps the low word of the key `2 ^ 64` only. -/
theorem join_loses_key_bits :
    let m : ZModel := Smt.Model.ofNats fun _ => none
    ¬ ∀ p j a t ta, mergedLookup 1 = some p → p.mapKey = some j →
      OnlyTaken fromBlockOne m (twoLookups 1) a →
      exprToZ3 (some fromBlockOne) none (makeInitState wideMap) j = .ok t →
      someToZ3 (some fromBlockOne) none (makeInitState wideMap) a.mapKey = .ok ta →
      UsedAs m t ta (keyBits wideMap 0) := by
  intro m h
  let cells : ZBv := concatLE ⟨64, resize ⟨64, bvVal 0 64⟩ 64⟩ [⟨64, resize ⟨64, bvVal 1 64⟩ 64⟩]
  let key : ZBv := ⟨128, resize cells 128⟩
  let joined : Expr :=
    joinOf 3 0 [((lookedUp 5 1).mapKey, [(1, .fall)]), ((lookedUp 9 0).mapKey, [(2, .fall)])]
  have hmerged : mergedLookup 1 =
      some { lookedUp 5 1 with mapKey := some joined, mapKeyId := some 1 } := rfl
  have htaken : OnlyTaken fromBlockOne m (twoLookups 1) (lookedUp 5 1) :=
    ⟨[], (1, .fall), [((2, .fall), lookedUp 9 0)], rfl, rfl, by simp [Reads.taken, fromBlockOne, Guard.eval]⟩
  have hkey : someToZ3 (some fromBlockOne) none (makeInitState wideMap) (lookedUp 5 1).mapKey =
      .ok key := rfl
  have hjoined : exprToZ3 (some fromBlockOne) none (makeInitState wideMap) joined =
      .ok ⟨64, resize key 64⟩ := rfl
  have hused := h _ joined _ _ key hmerged rfl htaken hjoined hkey
  have hwhole : key.toNat m = 2 ^ 64 := by
    have hcells : cells.toNat m = 2 ^ 64 := by
      rw [toNat_concatLE]
      simp [cellsNat, toNat_resize]
    rw [Bv.toNat_mk, toNat_resize, hcells]
    norm_num
  rw [UsedAs, toNat_resize, Bv.toNat_mk, toNat_resize, hwhole] at hused
  norm_num at hused

end WideKeys

end Hornet
