import Hornet.Lib.Fold
import Hornet.Track.Block
import Hornet.Track.Encode

/-!
Joins of pointers. Wherever `mergeEntry` hands back a pointer, its region, its
offsets and the fields that name its object are those of the first incoming
pointer that is not known to be null, so whether a join keeps addresses depends
only on what it compares before it takes the first one.
-/

namespace Hornet

/-- The fields of a pointer that say where it points. -/
def PTR.target (p : PTR Expr) :
    PtrType × Int × Option Expr × Option Nat × Option String × Option Int :=
  (p.ptrType, p.off, p.varOff, p.mapId, p.bssIdx, p.rodataOffset)

/-- The pointer an entry holds. -/
def ptrIn (o : Option Obj) : Option (PTR Expr) := o.bind (·.val.ptr?)

/-- A part of the pointer that an entry holds. -/
def fieldIn {β : Type} (f : PTR Expr → β) (o : Option Obj) : Option β :=
  (ptrIn o).map f

/-- What is left of an entry for the joins of addresses. -/
def targetIn (o : Option Obj) :
    Option (PtrType × Int × Option Expr × Option Nat × Option String × Option Int) :=
  (ptrIn o).map PTR.target

@[simp] theorem targetIn_none : targetIn none = none := rfl

@[simp] theorem targetIn_ptr (org : Origin) (p : PTR Expr) :
    targetIn (some ⟨org, .ptr p⟩) = some p.target := rfl

theorem withNullity_val {o : Obj} {p : PTR Expr} (h : o.val = .ptr p) (nullity : Option Bool)
    (copy : Origin) :
    (withNullity o p nullity copy).val = .ptr { p with checkedNull := nullity } := by
  unfold withNullity
  split
  · rename_i hn
    rw [h, ← hn]
  · rfl

theorem target_withNullity {o : Obj} {p : PTR Expr} (h : o.val = .ptr p) (nullity : Option Bool)
    (copy : Origin) : targetIn (some (withNullity o p nullity copy)) = some p.target := by
  simp [targetIn, ptrIn, withNullity_val h, Expr.ptr?, PTR.target]

/-- Pointers of the remaining regions are equal when their offsets are. -/
theorem same_ptr {p q : PTR Expr}
    (ht : p.ptrType = .MAP ∨ p.ptrType = .BSS ∨ p.ptrType = .RODATA) (hq : p.ptrType = q.ptrType) :
    Expr.same (.ptr p) (.ptr q) = (decide (p.off = q.off) && Expr.sameOpt p.varOff q.varOff) := by
  obtain ⟨t, _⟩ := p
  obtain ⟨t', _⟩ := q
  simp only at ht hq
  subst hq
  rcases ht with rfl | rfl | rfl <;> simp [Expr.same]

namespace Block

variable (self : Block) (predEdges : List Edge) (regNum : Int)

/-- The null phi is all that a stamped pointer gets. -/
theorem fieldIn_stampNullPhi {β : Type} {f : PTR Expr → β}
    (hf : ∀ p phi, f { p with nullPhi := phi } = f p) (o : Obj) (entries : List Obj) :
    fieldIn f (some (self.stampNullPhi o predEdges entries regNum).1) = fieldIn f (some o) := by
  unfold stampNullPhi
  split
  · rename_i p hp
    split
    · rfl
    · dsimp only
      split
      · rfl
      · simp [fieldIn, ptrIn, hp, Expr.ptr?, hf]
  · rfl

/-- A join with null constants changes the id, the nullity and the null phi. -/
theorem fieldIn_mergeNulls {β : Type} {f : PTR Expr → β}
    (hf : ∀ p phi, f { p with nullPhi := phi } = f p)
    (hid : ∀ p nullity i, f { p with checkedNull := nullity, id := i } = f p)
    (entries : List Obj) (merged : Option Obj) :
    fieldIn f (self.mergeNulls predEdges entries regNum merged).1 = fieldIn f merged := by
  unfold mergeNulls
  split
  · rename_i org p
    simp only [fieldIn_stampNullPhi _ _ _ hf]
    unfold undecide
    split
    · exact congrArg some (hid _ _ _)
    · rfl
  · rename_i h
    rcases merged with _ | ⟨org, v⟩
    · rfl
    · cases v <;> first | rfl | exact (h _ _ rfl).elim

theorem target_stampNullPhi (o : Obj) (entries : List Obj) :
    targetIn (some (self.stampNullPhi o predEdges entries regNum).1) = targetIn (some o) :=
  self.fieldIn_stampNullPhi predEdges regNum (fun _ _ => rfl) o entries

theorem target_mergeNulls (entries : List Obj) (merged : Option Obj) :
    targetIn (self.mergeNulls predEdges entries regNum merged).1 = targetIn merged :=
  self.fieldIn_mergeNulls predEdges regNum (fun _ _ => rfl) (fun _ _ _ => rfl) entries merged

end Block

/-- A pointer that an edge brings to a join, with the fact of the edge. -/
structure Incoming where
  edge : Edge
  org : Origin
  ptr : PTR Expr
  cond : Option EdgeFact

namespace Incoming

def obj (x : Incoming) : Obj := ⟨x.org, .ptr x.ptr⟩

end Incoming

namespace Block

variable (self : Block) (regNum : Int)

/-- The join of the given pointers. -/
def mergeIncoming (xs : List Incoming) : Option Obj × Block :=
  self.mergeEntry (xs.map (·.edge)) (xs.map fun x => some x.obj) regNum (xs.map (·.cond))

/-- Whether the edge's fact or the block's facts say that the pointer is null. -/
def nullOn (x : Incoming) : Bool :=
  x.ptr.checkedNull.isNone && self.knownNull x.cond x.ptr = some true

/-- The pointers that are not known to be null. -/
def liveOf (xs : List Incoming) : List Incoming := xs.filter (!self.nullOn ·)

/-- Resolving the pointer again changes nothing. -/
def Settled (p : PTR Expr) : Prop :=
  p.checkedNull = none → (self.ptrFacts (nullFactId p)).bind (·.checkedNull) = none

/-- What becomes of a pointer when the facts of its edge are applied. -/
def Resolved (x : Incoming) (o : Obj) : Prop :=
  if self.nullOn x then o.val = .num 0 8 (-1)
  else ∃ p, o.val = .ptr p ∧ p.target = x.ptr.target ∧ self.Settled p

theorem resolveEntry_settled {p : PTR Expr} (hp : self.Settled p) (depth k : Nat) (org : Origin) :
    self.resolveEntry regNum depth k none (some ⟨org, .ptr p⟩) = some ⟨org, .ptr p⟩ := by
  unfold resolveEntry viewEntry
  simp only
  split
  · rfl
  · rename_i hnone
    have hfacts := hp (by simpa using hnone)
    simp only [knownNull, hfacts]

/-- A pointer that has met the facts of its edge is settled. -/
theorem settled_of_resolveEntry {depth k : Nat} {c : Option EdgeFact} {v : Option Obj}
    {org : Origin} {p : PTR Expr}
    (h : self.resolveEntry regNum depth k c v = some ⟨org, .ptr p⟩) : self.Settled p := by
  unfold resolveEntry at h
  generalize self.viewEntry regNum depth k c v = w at h
  match w, h with
  | some ⟨org', .ptr q⟩, h =>
      dsimp only at h
      split at h
      · rename_i hsome
        obtain ⟨-, hq⟩ := Obj.mk.inj (Option.some.inj h)
        obtain rfl := Expr.ptr.inj hq
        intro hnone
        simp [hnone] at hsome
      · rename_i hnone
        split at h
        · have hval := congrArg (Obj.val) (Option.some.inj h)
          rw [withNullity_val rfl] at hval
          obtain rfl := Expr.ptr.inj hval
          simp [Settled]
        · cases congrArg Obj.val (Option.some.inj h)
        · rename_i hknown
          obtain ⟨-, hq⟩ := Obj.mk.inj (Option.some.inj h)
          obtain rfl := Expr.ptr.inj hq
          intro _
          unfold knownNull at hknown
          split at hknown
          · split at hknown
            · cases hknown
            · exact hknown
          · exact hknown

theorem resolveEntry_resolved {x : Incoming} (hctx : x.ptr.ptrType ≠ .CTX) (depth k : Nat) :
    ∃ o, self.resolveEntry regNum depth k x.cond (some x.obj) = some o ∧ self.Resolved x o := by
  have hview : ∀ b c, withView x.obj b c = x.obj := by
    intro b c
    simp [withView, Incoming.obj, hctx]
  have hentry : self.viewEntry regNum depth k x.cond (some x.obj) = some x.obj := by
    unfold viewEntry
    split
    · simp [hview]
    · rfl
  unfold resolveEntry
  rw [hentry]
  dsimp only [Incoming.obj]
  cases hchecked : x.ptr.checkedNull with
  | some b =>
      refine ⟨x.obj, if_pos rfl, ?_⟩
      have hnull : self.nullOn x = false := by simp [nullOn, hchecked]
      simp only [Resolved, hnull]
      exact ⟨x.ptr, rfl, rfl, by simp [Settled, hchecked]⟩
  | none =>
      cases hknown : self.knownNull x.cond x.ptr with
      | none =>
          refine ⟨x.obj, by simp [Incoming.obj], ?_⟩
          have hnull : self.nullOn x = false := by simp [nullOn, hknown]
          simp only [Resolved, hnull]
          refine ⟨x.ptr, rfl, rfl, fun _ => ?_⟩
          unfold knownNull at hknown
          split at hknown
          · split at hknown
            · simp at hknown
            · exact hknown
          · exact hknown
      | some b =>
          cases b with
          | true =>
              refine ⟨_, by simp only [Option.isSome_none]; rfl, ?_⟩
              simp [Resolved, nullOn, hchecked, hknown]
          | false =>
              refine ⟨_, by simp only [Option.isSome_none]; rfl, ?_⟩
              have hnull : self.nullOn x = false := by simp [nullOn, hknown]
              simp only [Resolved, hnull]
              exact ⟨_, withNullity_val rfl _ _, rfl, by simp [Settled]⟩

theorem resolveEntries_map {ι : Type} (depth : Nat) (cond : ι → Option EdgeFact)
    (value : ι → Option Obj) (xs : List ι) :
    self.resolveEntries regNum depth (xs.map cond) (xs.map value) =
      xs.zipIdx.map fun y => self.resolveEntry regNum depth y.2 (cond y.1) (value y.1) := by
  apply List.ext_getElem
  · simp [resolveEntries]
  · intro k h1 h2
    simp only [resolveEntries, List.length_map, List.length_zipIdx] at h1
    simp [resolveEntries, List.getD_eq_getElem?_getD, h1]

theorem resolveEntries_incoming (depth : Nat) (xs : List Incoming)
    (hctx : ∀ x ∈ xs, x.ptr.ptrType ≠ .CTX) :
    ∃ objs : List Obj,
      self.resolveEntries regNum depth (xs.map (·.cond)) (xs.map fun x => some x.obj) =
        objs.map some ∧ List.Forall₂ self.Resolved xs objs := by
  rw [self.resolveEntries_map]
  suffices ∀ n, ∃ objs : List Obj,
      ((xs.zipIdx n).map fun y => self.resolveEntry regNum depth y.2 y.1.cond (some y.1.obj)) =
        objs.map some ∧ List.Forall₂ self.Resolved xs objs from this 0
  induction xs with
  | nil => exact fun n => ⟨[], rfl, .nil⟩
  | cons x xs ih =>
      intro n
      obtain ⟨o, ho, hres⟩ := self.resolveEntry_resolved regNum (hctx x (by simp)) depth n
      obtain ⟨objs, hobjs, hall⟩ := ih (fun y hy => hctx y (by simp [hy])) (n + 1)
      refine ⟨o :: objs, ?_, .cons hres hall⟩
      rw [List.zipIdx_cons, List.map_cons, hobjs, List.map_cons, ho]

theorem resolveEntries_settled (depth : Nat) {objs : List Obj}
    (h : ∀ o ∈ objs, ∃ p, o.val = .ptr p ∧ self.Settled p) :
    self.resolveEntries regNum depth [] (objs.map some) = objs.map some := by
  apply List.ext_getElem
  · simp [resolveEntries]
  · intro k h1 h2
    simp only [List.length_map] at h2
    obtain ⟨p, hp, hset⟩ := h objs[k] (List.getElem_mem h2)
    have hobj : objs[k] = ⟨objs[k].org, .ptr p⟩ := by rw [← hp]
    simp only [resolveEntries, List.getElem_map, List.getElem_zipIdx, List.getD_nil]
    rw [hobj]
    exact self.resolveEntry_settled regNum hset _ _ _

/-- A list of settled pointers is joined as it is. -/
theorem mergeEntryFuel_settled (fuel : Nat) (predEdges : List Edge) {objs : List Obj}
    (h : ∀ o ∈ objs, ∃ p, o.val = .ptr p ∧ self.Settled p) :
    mergeEntryFuel (fuel + 1) self predEdges (objs.map some) regNum [] =
      self.mergeUniform predEdges objs regNum := by
  have hall : (objs.map (·.val.isPTR)).all id = true := by
    simp only [List.all_map, List.all_eq_true]
    intro o ho
    obtain ⟨p, hp, -⟩ := h o ho
    simp [hp, Expr.isPTR]
  rw [mergeEntryFuel, self.resolveEntries_settled regNum fuel h, Lib.mapM_id_map_some]
  simp only [hall]
  simp

/-- The pointers among the resolved entries are settled. -/
theorem settled_of_resolved {predConds : List (Option EdgeFact)} {depth : Nat}
    {entries : List (Option Obj)} {objs : List Obj}
    (h : self.resolveEntries regNum depth predConds entries = objs.map some) :
    ∀ o ∈ objs, o.val.isPTR = true → ∃ p, o.val = .ptr p ∧ self.Settled p := by
  intro o ho hptr
  have hmem : some o ∈ self.resolveEntries regNum depth predConds entries := by
    rw [h]
    exact List.mem_map_of_mem ho
  obtain ⟨⟨v, k⟩, -, hv⟩ := List.mem_map.mp hmem
  obtain ⟨org, val⟩ := o
  cases val with
  | ptr p => exact ⟨p, rfl, self.settled_of_resolveEntry regNum hv⟩
  | _ => cases hptr

/-- `mergeEntry` on resolved entries, without its recursion: the join of the pointers
resolves nothing that is not resolved. -/
theorem mergeEntry_resolved {predEdges : List Edge} {entries : List (Option Obj)}
    {predConds : List (Option EdgeFact)} {objs : List Obj}
    (h : self.resolveEntries regNum entries.length predConds entries = objs.map some) :
    self.mergeEntry predEdges entries regNum predConds =
      if objs.any (·.val.isPTR) && !objs.all (·.val.isPTR) then
        if objs.any (fun o => !o.val.isPTR && !isNullConst o.val) then (none, self)
        else
          let zs := (predEdges.zip objs).filter (·.2.val.isPTR)
          let merged := self.mergeUniform (zs.map (·.1)) (zs.map (·.2)) regNum
          merged.2.mergeNulls predEdges objs regNum merged.1
      else self.mergeUniform predEdges objs regNum := by
  have hany : (objs.map (·.val.isPTR)).any id = objs.any (·.val.isPTR) := by simp
  have hall : (objs.map (·.val.isPTR)).all id = objs.all (·.val.isPTR) := by simp
  unfold mergeEntry
  rw [mergeEntryFuel, h, Lib.mapM_id_map_some]
  dsimp only
  rw [hany, hall]
  split
  · rename_i hmixed
    split
    · rfl
    · have hpos : 0 < entries.length := by
        have hcount := congrArg List.length h
        simp only [resolveEntries, List.length_map, List.length_zipIdx] at hcount
        rw [hcount, List.length_pos_iff]
        rintro rfl
        simp at hmixed
      obtain ⟨n, hn⟩ := Nat.exists_eq_add_one.mpr hpos
      have hsettled : ∀ o ∈ ((predEdges.zip objs).filter (·.2.val.isPTR)).map (·.2),
          ∃ p, o.val = .ptr p ∧ self.Settled p := by
        intro o ho
        obtain ⟨z, hz, rfl⟩ := List.mem_map.mp ho
        obtain ⟨hmem, hptr⟩ := List.mem_filter.mp hz
        exact self.settled_of_resolved regNum h z.2 (List.of_mem_zip hmem).2 hptr
      have hinner := self.mergeEntryFuel_settled regNum n
        (((predEdges.zip objs).filter (·.2.val.isPTR)).map (·.1)) hsettled
      rw [List.map_map] at hinner
      rw [hn, show (fun x : Edge × Obj => some x.2) = some ∘ Prod.snd from rfl, hinner]
  · rfl

/-- What a pointer that is not known to be null becomes. -/
def LiveObj (x : Incoming) (o : Obj) : Prop :=
  ∃ p, o.val = .ptr p ∧ p.target = x.ptr.target ∧ self.Settled p

theorem isPTR_of_resolved {x : Incoming} {o : Obj} (h : self.Resolved x o) :
    o.val.isPTR = !self.nullOn x := by
  unfold Resolved at h
  split at h
  · rename_i hnull
    simp [h, hnull, Expr.isPTR]
  · rename_i hnull
    obtain ⟨p, hp, -⟩ := h
    simp [hp, hnull, Expr.isPTR]

theorem isNullConst_of_resolved {x : Incoming} {o : Obj} (h : self.Resolved x o) :
    (!o.val.isPTR && !isNullConst o.val) = false := by
  unfold Resolved at h
  split at h
  · simp [h, isNullConst]
  · obtain ⟨p, hp, -⟩ := h
    simp [hp, Expr.isPTR]

/-- The pointers among the resolved entries are those of the live edges. -/
theorem ptrAt_resolved {xs : List Incoming} {objs : List Obj}
    (h : List.Forall₂ self.Resolved xs objs) :
    ∃ ptrs, (((xs.map (·.edge)).zip objs).filter (·.2.val.isPTR)) =
        ((self.liveOf xs).map (·.edge)).zip ptrs ∧
      List.Forall₂ self.LiveObj (self.liveOf xs) ptrs := by
  induction h with
  | nil => exact ⟨[], rfl, .nil⟩
  | @cons x o xs objs hx hxs ih =>
      obtain ⟨ptrs, hzip, hall⟩ := ih
      have hptr := self.isPTR_of_resolved hx
      cases hnull : self.nullOn x with
      | true =>
          refine ⟨ptrs, ?_, ?_⟩
          · simpa [liveOf, hnull, hptr] using hzip
          · simpa [liveOf, hnull] using hall
      | false =>
          refine ⟨o :: ptrs, ?_, ?_⟩
          · simpa [liveOf, hnull, hptr] using hzip
          · simp only [Resolved, hnull] at hx
            have hlive : self.LiveObj x o := hx
            simpa [liveOf, hnull, hlive] using hall

theorem map_isPTR_resolved {xs : List Incoming} {objs : List Obj}
    (h : List.Forall₂ self.Resolved xs objs) :
    objs.map (·.val.isPTR) = xs.map (!self.nullOn ·) := by
  induction h with
  | nil => rfl
  | cons hx _ ih => rw [List.map_cons, List.map_cons, ih, self.isPTR_of_resolved hx]

theorem any_notNull_resolved {xs : List Incoming} {objs : List Obj}
    (h : List.Forall₂ self.Resolved xs objs) :
    objs.any (fun o => !o.val.isPTR && !isNullConst o.val) = false := by
  induction h with
  | nil => rfl
  | cons hx _ ih => rw [List.any_cons, ih, self.isNullConst_of_resolved hx, Bool.or_false]

theorem live_of_resolved {xs : List Incoming} {objs : List Obj}
    (h : List.Forall₂ self.Resolved xs objs) (hlive : ∀ x ∈ xs, self.nullOn x = false) :
    List.Forall₂ self.LiveObj xs objs := by
  induction h with
  | nil => exact .nil
  | @cons x o xs objs hx _ ih =>
      have hnull := hlive x (by simp)
      simp only [Resolved, hnull] at hx
      exact .cons hx (ih fun y hy => hlive y (by simp [hy]))

theorem settled_of_live {xs : List Incoming} {ptrs : List Obj}
    (h : List.Forall₂ self.LiveObj xs ptrs) :
    ∀ o ∈ ptrs, ∃ p, o.val = .ptr p ∧ self.Settled p := by
  induction h with
  | nil => simp
  | cons hx _ ih =>
      intro o ho
      rcases List.mem_cons.mp ho with rfl | ho
      · obtain ⟨p, hp, -, hset⟩ := hx
        exact ⟨p, hp, hset⟩
      · exact ih o ho

/-- A join of pointers points where the join of the live ones points. -/
theorem target_mergeIncoming {xs : List Incoming} (hctx : ∀ x ∈ xs, x.ptr.ptrType ≠ .CTX)
    (hlive : self.liveOf xs ≠ []) :
    ∃ ptrs, List.Forall₂ self.LiveObj (self.liveOf xs) ptrs ∧
      targetIn (self.mergeIncoming regNum xs).1 =
        targetIn (self.mergeUniform ((self.liveOf xs).map (·.edge)) ptrs regNum).1 := by
  obtain ⟨objs, hres, hall⟩ := self.resolveEntries_incoming regNum xs.length xs hctx
  obtain ⟨x, hx⟩ := List.exists_mem_of_ne_nil _ hlive
  have hx := List.mem_filter.mp hx
  have hany : (xs.map (!self.nullOn ·)).any id = true := by
    simp only [List.any_map, List.any_eq_true]
    exact ⟨x, hx⟩
  have hstep : self.mergeIncoming regNum xs =
      mergeEntryFuel (xs.length + 1) self (xs.map (·.edge)) (xs.map fun x => some x.obj) regNum
        (xs.map (·.cond)) := by
    simp [mergeIncoming, mergeEntry]
  rw [hstep, mergeEntryFuel, hres, Lib.mapM_id_map_some]
  simp only [self.map_isPTR_resolved hall, self.any_notNull_resolved hall, hany, Bool.true_and]
  cases hcase : (xs.map (!self.nullOn ·)).all id with
  | true =>
      have hnone : ∀ y ∈ xs, self.nullOn y = false := by simpa using hcase
      have hfilter : self.liveOf xs = xs := by
        apply List.filter_eq_self.mpr
        simpa using hnone
      rw [hfilter]
      exact ⟨objs, self.live_of_resolved hall hnone, by simp⟩
  | false =>
      obtain ⟨ptrs, hzip, hptrs⟩ := self.ptrAt_resolved hall
      refine ⟨ptrs, hptrs, ?_⟩
      have hlen : ((self.liveOf xs).map (·.edge)).length = ptrs.length := by
        rw [List.length_map, hptrs.length_eq]
      have hinner : mergeEntryFuel xs.length self
          ((((self.liveOf xs).map (·.edge)).zip ptrs).map (·.1))
          ((((self.liveOf xs).map (·.edge)).zip ptrs).map fun x => some x.2) regNum [] =
          self.mergeUniform ((self.liveOf xs).map (·.edge)) ptrs regNum := by
        have hfst := List.map_fst_zip (le_of_eq hlen)
        have hsnd := List.map_snd_zip (ge_of_eq hlen)
        have hsome := List.map_map (f := Prod.snd) (g := some)
          (l := ((self.liveOf xs).map (·.edge)).zip ptrs)
        rw [hsnd] at hsome
        rw [hfst, show (fun x : Edge × Obj => some x.2) = some ∘ Prod.snd from rfl, ← hsome]
        obtain ⟨n, hn⟩ := Nat.exists_eq_add_one.mpr (List.length_pos_of_mem hx.1)
        rw [hn]
        exact self.mergeEntryFuel_settled regNum n _ (self.settled_of_live hptrs)
      simp only [hzip, hinner, Bool.not_false, if_true, Bool.false_eq_true, if_false]
      exact target_mergeNulls _ _ _ _ _

theorem mapM_ptr_live {live : List Incoming} {ptrs : List Obj}
    (h : List.Forall₂ self.LiveObj live ptrs) :
    ∃ ps : List (PTR Expr), ptrs.mapM (·.val.ptr?) = some ps ∧
      ps.map PTR.target = live.map (·.ptr.target) := by
  induction h with
  | nil => exact ⟨[], rfl, rfl⟩
  | cons hx _ ih =>
      obtain ⟨ps, hps, htargets⟩ := ih
      obtain ⟨p, hp, htarget, -⟩ := hx
      refine ⟨p :: ps, ?_, by simp [htarget, htargets]⟩
      rw [List.mapM_cons, hps]
      simp [hp, Expr.ptr?]

/-- A test of the joined pointers is a test of what the edges bring. -/
theorem any_target {live : List Incoming} {ps : List (PTR Expr)}
    (h : ps.map PTR.target = live.map (·.ptr.target)) {f : PTR Expr → Bool} {g : Incoming → Bool}
    (hfg : ∀ x ∈ live, ∀ p : PTR Expr, p.target = x.ptr.target → f p = g x) :
    ps.any f = live.any g := by
  induction live generalizing ps with
  | nil => simp_all
  | cons x live ih =>
      cases ps with
      | nil => simp at h
      | cons p ps =>
          simp only [List.map_cons, List.cons.injEq] at h
          rw [List.any_cons, List.any_cons, hfg x (by simp) p h.1,
            ih h.2 fun y hy => hfg y (by simp [hy])]

/-- The join of live pointers is decided by the rule of their region. -/
theorem mergeUniform_live {first : Incoming} {live : List Incoming} {ptrs : List Obj}
    (h : List.Forall₂ self.LiveObj (first :: live) ptrs)
    (htype : ∀ x ∈ first :: live, x.ptr.ptrType = first.ptr.ptrType) (edges : List Edge) :
    ∃ (o : Obj) (p : PTR Expr) (ps : List (PTR Expr)), o.val = .ptr p ∧
      p.target = first.ptr.target ∧
      (p :: ps).map PTR.target = (first :: live).map (·.ptr.target) ∧
      self.mergeUniform edges ptrs regNum =
        (match p.ptrType with
        | .PKT => self.mergePkt edges o p ptrs (p :: ps)
            (foldNullity ((p :: ps).map (·.checkedNull))) regNum
        | .MAP_VALUE => self.mergeMapValue edges o p ptrs (p :: ps)
            (foldNullity ((p :: ps).map (·.checkedNull))) regNum
        | _ => self.mergeOther edges o p ptrs (p :: ps)
            (foldNullity ((p :: ps).map (·.checkedNull))) regNum) := by
  obtain ⟨ps, hps, htargets⟩ := self.mapM_ptr_live h
  cases h with
  | @cons _ o _ os hx hxs =>
      obtain ⟨p, hp, htarget, -⟩ := hx
      obtain ⟨ps', rfl⟩ : ∃ ps', ps = p :: ps' := by
        rw [List.mapM_cons] at hps
        cases hos : os.mapM (·.val.ptr?) with
        | none => simp_all [Expr.ptr?]
        | some ps' => exact ⟨ps', by simp_all [Expr.ptr?]⟩
      refine ⟨o, p, ps', hp, htarget, htargets, ?_⟩
      have hfirst : p.ptrType = first.ptr.ptrType := congrArg (·.1) htarget
      have hsame : (p :: ps').any (·.ptrType ≠ p.ptrType) = false := by
        rw [any_target htargets (g := fun _ => false), List.any_eq_false]
        · simp
        · intro x hx q hq
          have htypeq : q.ptrType = x.ptr.ptrType := congrArg (·.1) hq
          simp [htypeq, htype x hx, hfirst]
      simp only [mergeUniform, hp, hps, hsame]
      rfl

/-- Whether an entry of the remaining regions is taken for the first one. -/
def samePlace (x first : Incoming) : Bool :=
  x.ptr.off = first.ptr.off && Expr.sameOpt x.ptr.varOff first.ptr.varOff

theorem target_mergeOther_live {first : Incoming} {live : List Incoming} {ptrs : List Obj}
    (ht : first.ptr.ptrType = .MAP ∨ first.ptr.ptrType = .BSS ∨ first.ptr.ptrType = .RODATA)
    (h : List.Forall₂ self.LiveObj (first :: live) ptrs)
    (htype : ∀ x ∈ first :: live, x.ptr.ptrType = first.ptr.ptrType) (edges : List Edge) :
    targetIn (self.mergeUniform edges ptrs regNum).1 =
      if (first :: live).all (samePlace · first) then some first.ptr.target else none := by
  obtain ⟨o, p, ps, hp, htarget, htargets, hmerge⟩ := self.mergeUniform_live regNum h htype edges
  obtain ⟨htype', hoff, hvar, -⟩ : p.ptrType = first.ptr.ptrType ∧ p.off = first.ptr.off ∧
      p.varOff = first.ptr.varOff ∧ _ := by simpa [PTR.target] using htarget
  have hother : self.mergeUniform edges ptrs regNum = self.mergeOther edges o p ptrs (p :: ps)
      (foldNullity ((p :: ps).map (·.checkedNull))) regNum := by
    rw [hmerge]
    rcases ht with ht | ht | ht <;> rw [htype', ht]
  have hdiffers : (p :: ps).any (fun r => !Expr.same (.ptr r) (.ptr p)) =
      !(first :: live).all (samePlace · first) := by
    rw [any_target htargets (g := fun x => !samePlace x first), List.not_all_eq_any_not]
    intro x hx q hq
    obtain ⟨htypeq, hoffq, hvarq, -⟩ : q.ptrType = x.ptr.ptrType ∧ q.off = x.ptr.off ∧
        q.varOff = x.ptr.varOff ∧ _ := by simpa [PTR.target] using hq
    rw [same_ptr (by rwa [htypeq, htype x hx]) (by rw [htypeq, htype x hx, htype']), samePlace,
      hoffq, hvarq, hoff, hvar]
  rw [hother, mergeOther, hdiffers]
  cases (first :: live).all (samePlace · first) with
  | false => rfl
  | true =>
      have hctx : p.ptrType ≠ .CTX := by
        rw [htype']
        rcases ht with ht | ht | ht <;> simp [ht]
      simp only [hctx, Bool.not_true, Bool.false_eq_true, if_false, decide_false, Bool.false_and,
        target_stampNullPhi, target_withNullity hp, htarget, if_true]

/-- Whether a map-value pointer is taken for the first one. -/
def sameCell (x first : Incoming) : Bool :=
  x.ptr.mapId = first.ptr.mapId && x.ptr.off = first.ptr.off

theorem target_mergeMapValue_live {first : Incoming} {live : List Incoming} {ptrs : List Obj}
    (ht : first.ptr.ptrType = .MAP_VALUE)
    (h : List.Forall₂ self.LiveObj (first :: live) ptrs)
    (htype : ∀ x ∈ first :: live, x.ptr.ptrType = first.ptr.ptrType) (edges : List Edge) :
    targetIn (self.mergeUniform edges ptrs regNum).1 =
      if (first :: live).all (sameCell · first) then some first.ptr.target else none := by
  obtain ⟨o, p, ps, hp, htarget, htargets, hmerge⟩ := self.mergeUniform_live regNum h htype edges
  obtain ⟨htype', hoff, -, hmap, -⟩ : p.ptrType = first.ptr.ptrType ∧ p.off = first.ptr.off ∧
      p.varOff = first.ptr.varOff ∧ p.mapId = first.ptr.mapId ∧ _ := by
    simpa [PTR.target] using htarget
  have hvalue : self.mergeUniform edges ptrs regNum = self.mergeMapValue edges o p ptrs (p :: ps)
      (foldNullity ((p :: ps).map (·.checkedNull))) regNum := by
    rw [hmerge, htype', ht]
  have hdiffers : (p :: ps).any (fun r => r.mapId ≠ p.mapId || r.off ≠ p.off) =
      !(first :: live).all (sameCell · first) := by
    rw [any_target htargets (g := fun x => !sameCell x first), List.not_all_eq_any_not]
    intro x hx q hq
    obtain ⟨-, hoffq, -, hmapq, -⟩ : q.ptrType = x.ptr.ptrType ∧ q.off = x.ptr.off ∧
        q.varOff = x.ptr.varOff ∧ q.mapId = x.ptr.mapId ∧ _ := by simpa [PTR.target] using hq
    rw [sameCell, hoffq, hmapq, hoff, hmap, Bool.not_and]
    simp
  rw [hvalue, mergeMapValue, hdiffers]
  cases (first :: live).all (sameCell · first) with
  | false => rfl
  | true =>
      simp only [Bool.not_true, Bool.false_eq_true, if_false, if_true]
      split
      · simp only [target_stampNullPhi, target_withNullity hp, htarget]
      · simp only [target_stampNullPhi, ← htarget]
        rfl

theorem type_of_live {xs : List Incoming} {first : Incoming} {live : List Incoming} {t : PtrType}
    (htype : ∀ x ∈ xs, x.ptr.ptrType = t) (hlive : self.liveOf xs = first :: live) :
    first.ptr.ptrType = t ∧ ∀ x ∈ first :: live, x.ptr.ptrType = first.ptr.ptrType := by
  have hmem : ∀ x ∈ first :: live, x ∈ xs := by
    intro x hx
    rw [← hlive] at hx
    exact (List.mem_filter.mp hx).1
  have hfirst := htype first (hmem first (by simp))
  exact ⟨hfirst, fun x hx => (htype x (hmem x hx)).trans hfirst.symm⟩

end Block

/-- The object a map, `.bss` or `.rodata` pointer points into. -/
inductive MemObject where
  | map (mapId : Option Nat)
  | bss (sym : Option String)
  | rodata (base : Option Int)
  | other
  deriving DecidableEq, Repr

def PTR.object (p : PTR Expr) : MemObject :=
  match p.ptrType with
  | .MAP => .map p.mapId
  | .BSS => .bss p.bssIdx
  | .RODATA => .rodata p.rodataOffset
  | _ => .other

theorem object_of_target {p q : PTR Expr} (h : p.target = q.target) : p.object = q.object := by
  simp only [PTR.target, Prod.mk.injEq] at h
  obtain ⟨htype, -, -, hmap, hbss, hrodata⟩ := h
  simp only [PTR.object, htype, hmap, hbss, hrodata]

/-- Whether two pointers have the same constant and the same variable offset. -/
def PTR.SameOffset (p q : PTR Expr) : Prop :=
  p.off = q.off ∧ Expr.sameOpt p.varOff q.varOff = true

section ByteOffset

open Smt

variable {maps : List MapInfo} (R : Option (Reads maps)) (blk : Option Nat) (st : Z3State maps)
  (m : ZModel)

/-- The value of a pointer's variable offset in a state. -/
def PTR.varOffset (p : PTR Expr) : Except LowerError (BitVec 64) := do
  let v ← optToZ3 R blk st p.varOff
  pure (match v with
    | none => 0
    | some t => BitVec.ofNat 64 (t.toNat m))

/-- The byte of the object that the pointer points to. -/
def PTR.byteOffset (p : PTR Expr) : Except LowerError (BitVec 64) := do
  let v ← p.varOffset R blk st m
  pure (v + BitVec.ofInt 64 p.off)

theorem byteOffset_eq_iff {p q : PTR Expr} (h : p.off = q.off) :
    p.byteOffset R blk st m = q.byteOffset R blk st m ↔
      p.varOffset R blk st m = q.varOffset R blk st m := by
  unfold PTR.byteOffset
  rw [h]
  constructor
  · intro heq
    cases hp : p.varOffset R blk st m <;> cases hq : q.varOffset R blk st m <;>
      simp_all [bind, Except.bind, pure, Except.pure]
  · intro heq
    rw [heq]

theorem varOffset_of_varOff {p q : PTR Expr} (h : p.varOff = q.varOff) :
    p.varOffset R blk st m = q.varOffset R blk st m := by
  unfold PTR.varOffset
  rw [h]

end ByteOffset

theorem all_sameCell_iff {xs : List Incoming} {first : Incoming} :
    xs.all (Block.sameCell · first) = true ↔
      ∀ x ∈ xs, x.ptr.mapId = first.ptr.mapId ∧ x.ptr.off = first.ptr.off := by
  simp [List.all_eq_true, Block.sameCell]

theorem all_samePlace_iff {xs : List Incoming} {first : Incoming} :
    xs.all (Block.samePlace · first) = true ↔ ∀ x ∈ xs, x.ptr.SameOffset first.ptr := by
  simp [List.all_eq_true, Block.samePlace, PTR.SameOffset]

section Identity

variable (self : Block) (regNum : Int)

/-- The join of map, `.bss` or `.rodata` pointers keeps the object and the offset
of every edge exactly when the live entries with the offset of the first one
point into the object of the first one: the join compares offsets only. -/
theorem merge_keeps_object_iff (xs : List Incoming) (t : PtrType)
    (ht : t = .MAP ∨ t = .BSS ∨ t = .RODATA) (htype : ∀ x ∈ xs, x.ptr.ptrType = t) :
    (∀ q, ptrIn (self.mergeIncoming regNum xs).1 = some q →
      ∀ x ∈ self.liveOf xs, q.object = x.ptr.object ∧ x.ptr.SameOffset q) ↔
    (∀ first ∈ (self.liveOf xs).head?, (∀ x ∈ self.liveOf xs, x.ptr.SameOffset first.ptr) →
      ∀ x ∈ self.liveOf xs, x.ptr.object = first.ptr.object) := by
  have hctx : ∀ x ∈ xs, x.ptr.ptrType ≠ .CTX := by
    intro x hx
    rw [htype x hx]
    rcases ht with rfl | rfl | rfl <;> simp
  cases hlive : self.liveOf xs with
  | nil => simp
  | cons first live =>
      obtain ⟨hfirst, hall⟩ := self.type_of_live htype hlive
      obtain ⟨ptrs, hptrs, htarget⟩ := self.target_mergeIncoming regNum hctx (by simp [hlive])
      rw [hlive] at hptrs htarget
      rw [self.target_mergeOther_live regNum (hfirst ▸ ht) hptrs hall] at htarget
      simp only [List.head?_cons, Option.mem_some_iff, forall_eq']
      constructor
      · intro hkeep hsame x hx
        rw [if_pos (all_samePlace_iff.mpr hsame)] at htarget
        obtain ⟨q, hq, hqt⟩ := Option.map_eq_some_iff.mp htarget
        have hobj := object_of_target hqt
        rw [← hobj]
        exact (hkeep q hq x hx).1.symm
      · intro hobj q hq x hx
        rw [targetIn, hq, Option.map_some] at htarget
        split at htarget
        · rename_i hplace
          have hsame := all_samePlace_iff.mp hplace
          have hqt : q.target = first.ptr.target := Option.some.inj htarget
          have hfields := hqt
          simp only [PTR.target, Prod.mk.injEq] at hfields
          obtain ⟨-, hoff, hvar, -⟩ := hfields
          refine ⟨(object_of_target hqt).trans (hobj hsame x hx).symm, ?_⟩
          unfold PTR.SameOffset
          rw [hoff, hvar]
          exact hsame x hx
        · cases htarget

/-- Two incoming edges bring pointers to the two maps 0 and 1. -/
def twoMaps : List Incoming :=
  [⟨(1, .fall), .instr 3 0, { ptrType := .MAP, id := NO_FACT_ID, mapId := some 0 }, none⟩,
   ⟨(2, .fall), .instr 5 0, { ptrType := .MAP, id := NO_FACT_ID, mapId := some 1 }, none⟩]

/-- Two incoming edges bring pointers to byte 4 of the variable `counter`. -/
def oneCounter : List Incoming :=
  let p : PTR Expr := { ptrType := .BSS, id := NO_FACT_ID, off := 4, bssIdx := some "counter" }
  [⟨(1, .fall), .instr 3 0, p, none⟩, ⟨(2, .taken), .instr 5 0, p, none⟩]

theorem merge_keeps_object_iff_counter :
    let block : Block := { num := 3, start := 6, «end» := 8 }
    (block.liveOf oneCounter).length = 2 ∧ ∃ q, ptrIn (block.mergeIncoming 1 oneCounter).1 = some q ∧
      ∀ x ∈ block.liveOf oneCounter, q.object = x.ptr.object ∧ x.ptr.SameOffset q := by
  intro block
  refine ⟨rfl, _, rfl, ?_⟩
  refine (merge_keeps_object_iff block 1 oneCounter .BSS (by decide) (by decide)).mpr ?_ _ rfl
  intro first hfirst _ x hx
  obtain rfl : _ = first := Option.some.inj hfirst
  revert x
  decide

theorem merge_loses_object :
    ¬ ∀ q, ptrIn (({ num := 3, start := 6, «end» := 8 } : Block).mergeIncoming 1 twoMaps).1 = some q →
      ∀ x ∈ ({ num := 3, start := 6, «end» := 8 } : Block).liveOf twoMaps,
        q.object = x.ptr.object ∧ x.ptr.SameOffset q := by
  intro h
  have hsecond := h _ rfl _ (List.mem_cons_of_mem _ (List.mem_singleton.mpr rfl))
  exact absurd hsecond.1 (by decide)

/-- The join of map-value pointers keeps the map and the byte of every edge
exactly when live entries that agree in map and constant offset also agree in the
value of their variable offset, which the join never compares. -/
theorem merge_keeps_byte_iff (xs : List Incoming) (htype : ∀ x ∈ xs, x.ptr.ptrType = .MAP_VALUE)
    {maps : List MapInfo} (R : Option (Reads maps)) (blk : Option Nat) (st : Z3State maps)
    (m : ZModel) :
    (∀ q, ptrIn (self.mergeIncoming regNum xs).1 = some q →
      ∀ x ∈ self.liveOf xs, q.mapId = x.ptr.mapId ∧
        q.byteOffset R blk st m = x.ptr.byteOffset R blk st m) ↔
    (∀ first ∈ (self.liveOf xs).head?,
      (∀ x ∈ self.liveOf xs, x.ptr.mapId = first.ptr.mapId ∧ x.ptr.off = first.ptr.off) →
      ∀ x ∈ self.liveOf xs, x.ptr.varOffset R blk st m = first.ptr.varOffset R blk st m) := by
  have hctx : ∀ x ∈ xs, x.ptr.ptrType ≠ .CTX := by
    intro x hx
    simp [htype x hx]
  cases hlive : self.liveOf xs with
  | nil => simp
  | cons first live =>
      obtain ⟨hfirst, hall⟩ := self.type_of_live htype hlive
      obtain ⟨ptrs, hptrs, htarget⟩ := self.target_mergeIncoming regNum hctx (by simp [hlive])
      rw [hlive] at hptrs htarget
      rw [self.target_mergeMapValue_live regNum hfirst hptrs hall] at htarget
      simp only [List.head?_cons, Option.mem_some_iff, forall_eq']
      constructor
      · intro hkeep hcell x hx
        rw [if_pos (all_sameCell_iff.mpr hcell)] at htarget
        obtain ⟨q, hq, hqt⟩ := Option.map_eq_some_iff.mp htarget
        simp only [PTR.target, Prod.mk.injEq] at hqt
        obtain ⟨-, hoff, hvar, -⟩ := hqt
        have hbyte := (hkeep q hq x hx).2
        rw [byteOffset_eq_iff R blk st m (hoff.trans (hcell x hx).2.symm)] at hbyte
        exact hbyte.symm.trans (varOffset_of_varOff R blk st m hvar)
      · intro hvars q hq x hx
        rw [targetIn, hq, Option.map_some] at htarget
        split at htarget
        · rename_i hall'
          have hcell := all_sameCell_iff.mp hall'
          have hqt := Option.some.inj htarget
          simp only [PTR.target, Prod.mk.injEq] at hqt
          obtain ⟨-, hoff, hvar, hmap, -⟩ := hqt
          refine ⟨hmap.trans (hcell x hx).1.symm, ?_⟩
          rw [byteOffset_eq_iff R blk st m (hoff.trans (hcell x hx).2.symm),
            varOffset_of_varOff R blk st m hvar]
          exact (hvars hcell x hx).symm
        · cases htarget

/-- One lookup result, to which one of the two branches adds a packet byte. -/
def twoOffsets : List Incoming :=
  let p : PTR Expr :=
    { ptrType := .MAP_VALUE, baseId := some 4, mapId := some 0, mapKey := some (.num 0 4 (-1)),
      mapKeyId := some 4 }
  [⟨(1, .fall), .instr 4 0, p, none⟩,
   ⟨(2, .fall), .instr 9 0,
    { p with varOff := some (.binary .ADD (some (.num 0 8 (-1)))
        (some (.pktVal 2 8 0 none 1)) 0 .b8 9) }, none⟩]

/-- In this model every byte of the packet and of the maps is one. -/
def oneBytes : ZModel := fun
  | .array _ (.bv _), _ => fun _ => 1
  | s, _ => s.zero

/-- Two lookups of one map, and on both branches the first packet byte is added. -/
def sameLookups : List Incoming :=
  let p (org : Int) (block : Nat) : PTR Expr :=
    { ptrType := .MAP_VALUE, baseId := some org, mapId := some 0,
      mapKey := some (.num org 4 (-1)), mapKeyId := some org,
      varOff := some (.binary .ADD (some (.num 0 8 (-1)))
        (some (.pktVal block (org + 1) 0 none 1)) 0 .b8 (org + 2)) }
  [⟨(1, .fall), .instr 6 0, p 4 1, none⟩, ⟨(2, .fall), .instr 11 0, p 9 2, none⟩]

theorem merge_keeps_byte_iff_two_lookups :
    let block : Block := { num := 3, start := 12, «end» := 14 }
    (block.liveOf sameLookups).length = 2 ∧ ∃ q, ptrIn (block.mergeIncoming 1 sameLookups).1 = some q ∧
      ∀ x ∈ block.liveOf sameLookups, q.mapId = x.ptr.mapId ∧
        q.byteOffset none none (makeInitState []) oneBytes =
          x.ptr.byteOffset none none (makeInitState []) oneBytes := by
  intro block
  refine ⟨rfl, _, rfl, ?_⟩
  refine (merge_keeps_byte_iff block 1 sameLookups (by decide) none none _ oneBytes).mpr ?_ _ rfl
  intro first hfirst _ x hx
  obtain rfl : _ = first := Option.some.inj hfirst
  revert x
  decide

/-- With a nonzero packet byte the two entries point to different bytes. -/
theorem merge_loses_byte :
    let block : Block := { num := 3, start := 10, «end» := 12 }
    ¬ ∀ q, ptrIn (block.mergeIncoming 1 twoOffsets).1 = some q →
      ∀ x ∈ block.liveOf twoOffsets, q.mapId = x.ptr.mapId ∧
        q.byteOffset none none (makeInitState []) oneBytes =
          x.ptr.byteOffset none none (makeInitState []) oneBytes := by
  intro block h
  have hsecond := h _ rfl _ (List.mem_cons_of_mem _ (List.mem_singleton.mpr rfl))
  exact absurd hsecond.2 (by decide)

end Identity

end Hornet
