import Hornet.Lib.Relate
import Hornet.Verify.SpecParse

/-!
Notes in a specification. Keys that start with `_` are notes, and what is asked is whether
the parser gives the same with them and without them. It does not where it counts the keys
of an object, reads all of its entries, or keeps it as it stands.
-/

namespace Hornet

open Lib

/-! ## Notes -/

/-- The entries of an object with notes among them, and the values under the other keys
related by `R`. -/
inductive NotedEntries (R : Json → Json → Prop) :
    List (String × Json) → List (String × Json) → Prop
  | nil : NotedEntries R [] []
  | keep {v v' : Json} {es es' : List (String × Json)} (k : String) (hv : R v v')
      (h : NotedEntries R es es') : NotedEntries R ((k, v) :: es) ((k, v') :: es')
  | note {es es' : List (String × Json)} {k : String} (hk : isNote k = true) (v : Json)
      (h : NotedEntries R es es') : NotedEntries R es ((k, v) :: es')

/-- A value into whose objects notes were inserted. -/
inductive Noted : Json → Json → Prop
  | same (v : Json) : Noted v v
  | arr {xs xs' : List Json} (h : List.Forall₂ Noted xs xs') : Noted (.arr xs) (.arr xs')
  | obj {es es' : List (String × Json)} (h : NotedEntries Noted es es') :
      Noted (.obj es) (.obj es')

section Entries

variable {es es' : List (String × Json)}

theorem notedEntries_refl (es : List (String × Json)) : NotedEntries Noted es es := by
  induction es with
  | nil => exact .nil
  | cons x es ih => exact .keep x.1 (.same x.2) ih

theorem noted_obj {v' : Json} (h : Noted (.obj es) v') :
    ∃ es', v' = .obj es' ∧ NotedEntries Noted es es' := by
  cases h with
  | same => exact ⟨es, rfl, notedEntries_refl es⟩
  | obj h => exact ⟨_, rfl, h⟩

theorem noted_arr {xs : List Json} {v' : Json} (h : Noted (.arr xs) v') :
    ∃ xs', v' = .arr xs' ∧ List.Forall₂ Noted xs xs' := by
  cases h with
  | same => exact ⟨xs, rfl, List.forall₂_same.mpr fun x _ => .same x⟩
  | arr h => exact ⟨_, rfl, h⟩

/-- What stands under a key that is no note. -/
theorem get_noted (h : NotedEntries Noted es es') {k : String} (hk : isNote k = false) :
    Option.Rel Noted (Json.get es k) (Json.get es' k) := by
  induction h with
  | nil => exact .none
  | @keep v v' es es' k' hv h ih =>
      unfold Json.get
      rw [List.lookup_cons, List.lookup_cons]
      split
      · exact .some hv
      · exact ih
  | @note es es' k' hnote v h ih =>
      have hne : k ≠ k' := fun heq => by rw [heq, hnote] at hk; cases hk
      unfold Json.get
      rw [List.lookup_cons, beq_false_of_ne hne]
      exact ih

/-- The entries that are no notes are the same but for the notes inside them. -/
theorem named_noted (h : NotedEntries Noted es es') :
    List.Forall₂ (fun x x' => x.1 = x'.1 ∧ Noted x.2 x'.2) (named es) (named es') := by
  induction h with
  | nil => exact .nil
  | @keep v v' es es' k hv h ih =>
      unfold named
      rw [List.filter_cons, List.filter_cons]
      split
      · exact .cons ⟨rfl, hv⟩ ih
      · exact ih
  | @note es es' k hk v h ih =>
      unfold named
      rw [List.filter_cons, if_neg (by simp [hk])]
      exact ih

end Entries

/-- A reader of values that takes no notice of notes. -/
def Blind {α : Type} (f : Json → α) : Prop := ∀ v v', Noted v v' → f v' = f v

section Blind

variable {α : Type}

/-- A reader that looks at nothing inside an object and at the members of a list only
blindly. -/
theorem blind_of {f : Json → α} (harr : ∀ xs xs', List.Forall₂ Noted xs xs' → f (.arr xs') = f (.arr xs))
    (hobj : ∀ es es', NotedEntries Noted es es' → f (.obj es') = f (.obj es)) : Blind f := by
  intro v v' h
  cases h with
  | same => rfl
  | arr h => exact harr _ _ h
  | obj h => exact hobj _ _ h

/-- A reader for which all lists are alike, and all objects. -/
theorem blind_of_alike {f : Json → α} (harr : ∀ xs xs', f (.arr xs') = f (.arr xs))
    (hobj : ∀ es es', f (.obj es') = f (.obj es)) : Blind f :=
  blind_of (fun xs xs' _ => harr xs xs') fun es es' _ => hobj es es'

theorem blind_toInt : Blind Json.toInt := blind_of_alike (fun _ _ => rfl) fun _ _ => rfl

theorem blind_parseInt : Blind parseInt := blind_of_alike (fun _ _ => rfl) fun _ _ => rfl

theorem blind_str : Blind Json.str? := blind_of_alike (fun _ _ => rfl) fun _ _ => rfl

theorem blind_isFalse : Blind Json.isFalse := blind_of_alike (fun _ _ => rfl) fun _ _ => rfl

theorem blind_parseRelOp : Blind parseRelOp := blind_of_alike (fun _ _ => rfl) fun _ _ => rfl

theorem blind_parseEqOp : Blind parseEqOp := blind_of_alike (fun _ _ => rfl) fun _ _ => rfl

theorem blind_parseReturns : Blind parseReturns := blind_of_alike (fun _ _ => rfl) fun _ _ => rfl

theorem blind_parseMode : Blind parseMode := blind_of_alike (fun _ _ => rfl) fun _ _ => rfl

theorem blind_ctxTarget : Blind ctxTarget := blind_of_alike (fun _ _ => rfl) fun _ _ => rfl

theorem blind_resolveMap (maps : Option (List MapDef)) : Blind (resolveMap maps) := by
  have heq : ∀ m : MapDef, Blind fun v => v.eqInt m.id || v.eqName m.name := fun m =>
    blind_of_alike (fun _ _ => rfl) fun _ _ => rfl
  intro v v' h
  unfold resolveMap
  congr
  funext ms
  congr
  funext m
  exact heq m v v' h

theorem mapM_blind {f : Json → Option α} (hf : Blind f) {xs xs' : List Json}
    (h : List.Forall₂ Noted xs xs') : xs'.mapM f = xs.mapM f := by
  induction h with
  | nil => rfl
  | cons hx _ ih => rw [List.mapM_cons, List.mapM_cons, hf _ _ hx, ih]

theorem blind_parseValBytes (size : Int) : Blind (parseValBytes size) := by
  apply blind_of
  · intro xs xs' h
    have hbyte : Blind fun b => b.toInt.map (· % 256) := by
      intro v v' h
      dsimp only
      rw [blind_toInt v v' h]
    show (if (xs'.length : Int) = size then _ else none) = if (xs.length : Int) = size then _ else none
    rw [h.length_eq, mapM_blind hbyte h]
  · exact fun _ _ _ => rfl

theorem blind_parseMultibyteInt (size : Int) : Blind (parseMultibyteInt size) := by
  intro v v' h
  unfold parseMultibyteInt
  rw [blind_parseValBytes size v v' h]

variable {x x' : Option Json}

theorem bind_blind {f : Json → Option α} (h : Option.Rel Noted x x') (hf : Blind f) :
    x'.bind f = x.bind f := by
  cases h with
  | none => rfl
  | some h => exact hf _ _ h

theorem elim_blind {f : Json → α} (d : α) (h : Option.Rel Noted x x') (hf : Blind f) :
    x'.elim d f = x.elim d f := by
  cases h with
  | none => rfl
  | some h => exact hf _ _ h

theorem isSome_noted (h : Option.Rel Noted x x') : x'.isSome = x.isSome := by
  cases h <;> rfl

theorem isNone_noted (h : Option.Rel Noted x x') : x'.isNone = x.isNone := by
  cases h <;> rfl

theorem any_noted {f : Json → Bool} (h : Option.Rel Noted x x') (hf : Blind f) :
    x'.any f = x.any f := by
  cases h with
  | none => rfl
  | some h => exact hf _ _ h

theorem mapM_noted {f : Json → Option α} (h : Option.Rel Noted x x') (hf : Blind f) :
    x'.mapM f = x.mapM f := by
  cases h with
  | none => rfl
  | some h => rw [Option.mapM_some, Option.mapM_some, hf _ _ h]

theorem bind_none_noted {f : Json → Option α} (h : Option.Rel Noted x x')
    (hf : Blind fun v => (f v).isSome) (hx : x.bind f = none) : x'.bind f = none := by
  cases h with
  | none => rfl
  | @some v v' h =>
      have hsome : (f v').isSome = (f v).isSome := hf v v' h
      have hv : f v = none := hx
      rw [hv, Option.isSome_none] at hsome
      exact Option.not_isSome_iff_eq_none.mp (by simp [hsome])

theorem getD_noted (d : Json) (h : Option.Rel Noted x x') : Noted (x.getD d) (x'.getD d) := by
  cases h with
  | none => exact .same d
  | some h => exact h

theorem filter_noted {f : Json → Bool} (h : Option.Rel Noted x x') (hf : Blind f) :
    Option.Rel Noted (x.filter f) (x'.filter f) := by
  cases h with
  | none => exact .none
  | @some v v' h =>
      rw [Option.filter_some, Option.filter_some, hf _ _ h]
      split
      · exact .some h
      · exact .none

end Blind

/-! ## Atoms -/

section Atoms

variable {a a' : List (String × Json)}

theorem parseHelperAtom_noted (calls : Option (Dict Int CallRecord))
    (h : NotedEntries Noted a a') : parseHelperAtom calls a' = parseHelperAtom calls a := by
  have hidx := bind_blind (get_noted h (k := "idx") rfl) blind_parseInt
  have hcheck : ∀ call, Blind (checkHelper call) := by
    intro call v v' hv
    unfold checkHelper
    rw [blind_str v v' hv]
  have hhelper := fun call => elim_blind (some ()) (get_noted h (k := "helper") rfl) (hcheck call)
  have hop := bind_blind (get_noted h (k := "op") rfl) blind_parseRelOp
  have hvalue := bind_blind (get_noted h (k := "value") rfl) blind_parseInt
  have hreturns := bind_blind (get_noted h (k := "returns") rfl) blind_parseReturns
  simp only [parseHelperAtom, hidx, hhelper, hop, hvalue, hreturns]

theorem parseRetAtom_noted (block : Option Int) (h : NotedEntries Noted a a') :
    parseRetAtom block a' = parseRetAtom block a := by
  have hop := elim_blind (some .eq) (get_noted h (k := "op") rfl) blind_parseRelOp
  have hret := bind_blind (get_noted h (k := "ret") rfl) blind_parseInt
  simp only [parseRetAtom, hop, hret]

theorem parseBssAtom_noted (op : EqOp) (h : NotedEntries Noted a a') :
    parseBssAtom op a' = parseBssAtom op a := by
  have hsym := bind_blind (get_noted h (k := "bss") rfl) blind_str
  have hsize := bind_blind (get_noted h (k := "size") rfl) blind_toInt
  have hoffset := elim_blind (some 0) (get_noted h (k := "offset") rfl) blind_toInt
  have hvalue := fun size => bind_blind (get_noted h (k := "value") rfl) (blind_parseMultibyteInt size)
  simp only [parseBssAtom, hsym, hsize, hoffset, hvalue]

theorem parseCtxAtom_noted (h : NotedEntries Noted a a') : parseCtxAtom a' = parseCtxAtom a := by
  have hctx := bind_blind (get_noted h (k := "ctx") rfl) blind_ctxTarget
  have hvalue := bind_blind (get_noted h (k := "value") rfl) blind_parseInt
  simp only [parseCtxAtom, hctx, hvalue]

theorem parsePktAtom_noted (op : EqOp) (h : NotedEntries Noted a a') :
    parsePktAtom op a' = parsePktAtom op a := by
  have hoffset := bind_blind (get_noted h (k := "offset") rfl) blind_toInt
  have hsize := bind_blind (get_noted h (k := "size") rfl) blind_toInt
  have hname : Blind fun name => name.str?.bind (PROTOCOL_FIELDS.lookup ·) :=
    blind_of_alike (fun _ _ => rfl) fun _ _ => rfl
  have hfield := fun d => elim_blind d (get_noted h (k := "field") rfl) hname
  have hvalue := fun size => bind_blind (get_noted h (k := "value") rfl) (blind_parseValBytes size)
  simp only [parsePktAtom, pktPlace, hoffset, hsize, hfield, hvalue]

theorem blind_readPlace (maps : Option (List MapDef)) : Blind (readPlace maps) := by
  apply blind_of (fun _ _ _ => rfl)
  intro spec spec' h
  have hsize := bind_blind (get_noted h (k := "size") rfl) blind_toInt
  have hoffset := bind_blind (get_noted h (k := "offset") rfl) blind_toInt
  have hplace : ∀ size, Blind (mapPlace maps size (Json.get spec "offset")) := by
    intro size v v' hv
    unfold mapPlace
    rw [blind_resolveMap maps v v' hv]
  have hdefault : ∀ size ref, mapPlace maps size (Json.get spec' "offset") ref =
      mapPlace maps size (Json.get spec "offset") ref := by
    intro size ref
    have hoffset := elim_blind (some 0) (get_noted h (k := "offset") rfl) blind_toInt
    simp only [mapPlace, hoffset]
  have hmap := fun size d => elim_blind d (get_noted h (k := "map") rfl) (hplace size)
  have heta : ∀ size, mapPlace maps size (Json.get spec' "offset") =
      mapPlace maps size (Json.get spec "offset") := fun size => funext (hdefault size)
  simp only [readPlace, hsize, hoffset, heta, hmap]

theorem parseReadAtom_noted (maps : Option (List MapDef)) (blocks : Option (List Block))
    (block : Option Int) (h : NotedEntries Noted a a') :
    parseReadAtom maps blocks block a' = parseReadAtom maps blocks block a := by
  have hop := elim_blind (some .eq) (get_noted h (k := "op") rfl) blind_parseEqOp
  have hread := bind_blind (get_noted h (k := "read") rfl) (blind_readPlace maps)
  have hvalue := fun size => bind_blind (get_noted h (k := "value") rfl) (blind_parseMultibyteInt size)
  simp only [parseReadAtom, hop, hread, hvalue]

theorem mapAtomParts_noted (maps : Option (List MapDef)) (h : NotedEntries Noted a a') :
    mapAtomParts maps a' = mapAtomParts maps a := by
  have hnull : Blind fun v => !v.isNull := blind_of_alike (fun _ _ => rfl) fun _ _ => rfl
  have hpresent : Option.Rel Noted (given a "contains") (given a' "contains") :=
    filter_noted (get_noted h rfl) hnull
  have hvalue : Option.Rel Noted (given a "value") (given a' "value") :=
    filter_noted (get_noted h rfl) hnull
  have hfalse := any_noted hpresent blind_isFalse
  have hmap := bind_blind (get_noted h (k := "map") rfl) (blind_resolveMap maps)
  have hkey := fun size => bind_blind (get_noted h (k := "key") rfl) (blind_parseMultibyteInt size)
  have hread := fun size => mapM_noted hvalue (blind_parseMultibyteInt size)
  simp only [mapAtomParts, hmap, isNone_noted hpresent, isNone_noted hvalue, isSome_noted hvalue,
    hfalse, hkey, hread]

/-- What a map atom asks of the presence of its key. -/
def asksPresent (a : List (String × Json)) : Option Bool := (given a "contains").map Json.truthy

theorem parseMapAtom_noted (maps : Option (List MapDef)) (h : NotedEntries Noted a a') :
    KeptIff (asksPresent a' = asksPresent a) (parseMapAtom maps a) (parseMapAtom maps a') := by
  unfold parseMapAtom
  rw [mapAtomParts_noted maps h]
  cases mapAtomParts maps a with
  | none => exact .none
  | some x =>
      refine ⟨nofun, fun t ht => ?_⟩
      cases ht
      simp [asksPresent]

/-- The bounds that a length atom keeps. -/
def keptBounds (a : List (String × Json)) : Option (Json × Json) :=
  (Json.get a "pkt_len").bind lenBounds

theorem parseLenAtom_noted (h : NotedEntries Noted a a') :
    KeptIff (keptBounds a' = keptBounds a) (parseLenAtom a) (parseLenAtom a') := by
  have hkept : KeptIff (keptBounds a' = keptBounds a) (keptBounds a) (keptBounds a') := by
    refine ⟨fun hnone => ?_, fun r hr => by rw [hr]⟩
    exact bind_none_noted (get_noted h rfl) (blind_of_alike (fun _ _ => rfl) fun _ _ => rfl) hnone
  exact hkept.map fun r r' heq => by
    obtain ⟨hmin, hmax⟩ := SpecAtom.len.inj heq
    exact Prod.ext hmin hmax

/-- The atom asks the same of the presence of a map entry, and keeps the same bounds of a
length. The other kinds of atoms read numbers and names only. -/
def AtomApart (a a' : List (String × Json)) : Prop :=
  if hasKey a "idx" || hasKey a "ret" || hasKey a "read" || hasKey a "bss" then True
  else if hasKey a "map" then asksPresent a' = asksPresent a
  else if hasKey a "pkt_len" then keptBounds a' = keptBounds a
  else True

theorem parseAtom_noted (maps : Option (List MapDef)) (calls : Option (Dict Int CallRecord))
    (blocks : Option (List Block)) (block : Option Int) (h : NotedEntries Noted a a') :
    KeptIff (AtomApart a a') (parseAtom maps calls blocks block a)
      (parseAtom maps calls blocks block a') := by
  have hkey : ∀ k, isNote k = false → hasKey a' k = hasKey a k := fun k hk =>
    isSome_noted (get_noted h hk)
  have hop := elim_blind (some .eq) (get_noted h (k := "op") rfl) blind_parseEqOp
  unfold parseAtom AtomApart
  rw [hkey "idx" rfl, hkey "ret" rfl, hkey "read" rfl, hkey "bss" rfl, hkey "map" rfl,
    hkey "pkt_len" rfl, hkey "ctx" rfl, hop]
  generalize hasKey a "idx" = idx, hasKey a "ret" = ret, hasKey a "read" = read,
    hasKey a "bss" = bss, hasKey a "map" = map, hasKey a "pkt_len" = len, hasKey a "ctx" = ctx
  cases idx with
  | true => exact .of_eq (parseHelperAtom_noted calls h) trivial
  | false =>
  cases ret with
  | true => exact .of_eq (parseRetAtom_noted block h) trivial
  | false =>
  cases read with
  | true => exact .of_eq (parseReadAtom_noted maps blocks block h) trivial
  | false =>
  -- the other kinds of atoms share the test of their operator
  cases (Json.get a "op").elim (some EqOp.eq) parseEqOp with
  | none => exact .none
  | some op =>
  cases bss with
  | true => exact .of_eq (parseBssAtom_noted op h) trivial
  | false =>
  cases map with
  | true => exact parseMapAtom_noted maps h
  | false =>
  cases len with
  | true => exact parseLenAtom_noted h
  | false =>
  cases ctx with
  | true => exact .of_eq (parseCtxAtom_noted h) trivial
  | false => exact .of_eq (parsePktAtom_noted op h) trivial

end Atoms

/-! ## Conditions -/

def IsCombinator (op : String) : Prop := op = "not" ∨ op = "and" ∨ op = "or"

/-- No note stands beside a combinator, and the atoms stand apart. -/
inductive CondApart : Json → Json → Prop
  | not {k k' : Json} (h : CondApart k k') : CondApart (.obj [("not", k)]) (.obj [("not", k')])
  | notList {k k' : Json} (h : CondApart k k') :
      CondApart (.obj [("not", .arr [k])]) (.obj [("not", .arr [k'])])
  | kids {op : String} {ks ks' : List Json} (hop : op = "and" ∨ op = "or")
      (h : List.Forall₂ CondApart ks ks') : CondApart (.obj [(op, .arr ks)]) (.obj [(op, .arr ks')])
  | atom {a a' : List (String × Json)} (ha : ∀ op k, a = [(op, k)] → ¬ IsCombinator op)
      (h : AtomApart a a') : CondApart (.obj a) (.obj a')

section Conditions

variable (maps : Option (List MapDef)) (calls : Option (Dict Int CallRecord))
  (blocks : Option (List Block)) (block : Option Int)

/-- An object with the name of a combinator is no atom. -/
theorem parseAtom_combinator {op : String} (hop : IsCombinator op) (kids : Json) :
    parseAtom maps calls blocks block [(op, kids)] = none := by
  rcases hop with rfl | rfl | rfl <;> rfl

theorem parseCond_atom {a : List (String × Json)}
    (ha : ∀ op k, a = [(op, k)] → ¬ IsCombinator op) :
    parseCond maps calls blocks block (.obj a) =
      (parseAtom maps calls blocks block a).map .leaf := by
  unfold parseCond
  split
  · rename_i op kids heq
    cases heq
    have hop := ha op kids rfl
    unfold IsCombinator at hop
    rw [if_neg (fun h => hop (.inl h)), if_neg (fun h => hop (.inr h))]
  · rename_i a' _ heq
    cases heq
    rfl
  · rename_i hobj
    exact absurd rfl (hobj a)

theorem parseConds_eq_mapM (ks : List Json) :
    parseConds maps calls blocks block ks = ks.mapM (parseCond maps calls blocks block) := by
  induction ks with
  | nil => rfl
  | cons k ks ih =>
      rw [List.mapM_cons, ← ih]
      rfl

omit maps calls blocks block in
theorem length_noted {R : Json → Json → Prop} {es es' : List (String × Json)}
    (h : NotedEntries R es es') : es.length ≤ es'.length := by
  induction h with
  | nil => exact Nat.le_refl _
  | keep _ _ _ ih => exact Nat.succ_le_succ ih
  | note _ _ _ ih => exact Nat.le_succ_of_le ih

omit maps calls blocks block in
/-- The only entry of an object: notes stand beside it, or it is the only one still. -/
theorem single_noted {op : String} {kids : Json} {es' : List (String × Json)}
    (h : NotedEntries Noted [(op, kids)] es') :
    (∃ kids', es' = [(op, kids')] ∧ Noted kids kids') ∨ ∀ op' k', es' ≠ [(op', k')] := by
  cases h with
  | keep _ hv h =>
      cases h with
      | nil => exact .inl ⟨_, rfl, hv⟩
      | note _ _ _ => exact .inr nofun
  | note _ _ h =>
      have hlen := length_noted h
      refine .inr fun op' k' heq => ?_
      cases heq
      simp at hlen

omit maps calls blocks block in
/-- An object with a combinator as its only entry is not made by notes. -/
theorem single_of_noted {op : String} {k : Json} {es : List (String × Json)}
    (hop : IsCombinator op) (h : NotedEntries Noted es [(op, k)]) : ∃ k₀, es = [(op, k₀)] := by
  cases h with
  | keep _ _ h =>
      cases h
      exact ⟨_, rfl⟩
  | note hk _ _ =>
      rcases hop with rfl | rfl | rfl <;> cases hk

omit maps calls blocks block in
theorem condApart_atom {a a' : List (String × Json)}
    (ha : ∀ op k, a = [(op, k)] → ¬ IsCombinator op) :
    AtomApart a a' ↔ CondApart (.obj a) (.obj a') := by
  refine ⟨.atom ha, fun h => ?_⟩
  cases h with
  | not => exact absurd (.inl rfl) (ha _ _ rfl)
  | notList => exact absurd (.inl rfl) (ha _ _ rfl)
  | kids hop => exact absurd (.inr hop) (ha _ _ rfl)
  | atom _ h => exact h

/-- With a note beside it a combinator is no condition any more. -/
theorem parseCond_beside {op : String} {kids : Json} {es' : List (String × Json)}
    (hop : IsCombinator op) (h : NotedEntries Noted [(op, kids)] es')
    (hbeside : ∀ op' k', es' ≠ [(op', k')]) :
    KeptIff (CondApart (.obj [(op, kids)]) (.obj es'))
      (parseCond maps calls blocks block (.obj [(op, kids)]))
      (parseCond maps calls blocks block (.obj es')) := by
  have hatom := (parseAtom_noted maps calls blocks block h).absent
    (parseAtom_combinator maps calls blocks block hop kids)
  apply KeptIff.of_none
  · rw [parseCond_atom _ _ _ _ fun op' k' heq => absurd heq (hbeside op' k'), hatom]
    rfl
  · intro hapart
    cases hapart with
    | not => exact hbeside _ _ rfl
    | notList => exact hbeside _ _ rfl
    | kids => exact hbeside _ _ rfl
    | atom ha => exact ha _ _ rfl hop

theorem parseCond_not {kids : Json} (hkids : ∀ ks, kids ≠ .arr ks) :
    parseCond maps calls blocks block (.obj [("not", kids)]) =
      (parseCond maps calls blocks block kids).map .not := by
  cases kids with
  | arr ks => exact absurd rfl (hkids ks)
  | _ => rfl

theorem parseCond_kids {op : String} (hop : op = "and" ∨ op = "or") (k : Json) (ks : List Json) :
    parseCond maps calls blocks block (.obj [(op, .arr (k :: ks))]) =
      ((k :: ks).mapM (parseCond maps calls blocks block)).map
        (if op = "and" then SpecCond.and else SpecCond.or) := by
  rw [← parseConds_eq_mapM]
  unfold parseCond
  rcases hop with rfl | rfl <;> simp

/-- The only entry is a combinator still, and its children are kept. -/
theorem parseCond_inside {op : String} {kids kids' : Json} (hop : IsCombinator op)
    (hkids : Noted kids kids')
    (hchild : ∀ k, sizeOf k ≤ sizeOf kids → ∀ k', Noted k k' →
      KeptIff (CondApart k k') (parseCond maps calls blocks block k)
        (parseCond maps calls blocks block k')) :
    KeptIff (CondApart (.obj [(op, kids)]) (.obj [(op, kids')]))
      (parseCond maps calls blocks block (.obj [(op, kids)]))
      (parseCond maps calls blocks block (.obj [(op, kids')])) := by
  have hnot : ∀ c c' : SpecCond, SpecCond.not c = SpecCond.not c' → c = c' := fun _ _ heq =>
    SpecCond.not.inj heq
  rcases hop with rfl | hop
  · by_cases hlist : ∃ ks, kids = .arr ks
    · obtain ⟨ks, rfl⟩ := hlist
      obtain ⟨ks', rfl, hks⟩ := noted_arr hkids
      match ks, ks', hks with
      | [], [], .nil => exact .none
      | [k], [k'], .cons hk .nil =>
          have hkept := (hchild k (by simp; omega) k' hk).map hnot
          refine hkept.congr ⟨.notList, fun h => ?_⟩
          cases h with
          | not h => cases h
          | notList h => exact h
          | kids hop => exact absurd hop (by decide)
          | atom ha => exact absurd (.inl rfl) (ha _ _ rfl)
      | _ :: _ :: _, _ :: _ :: _, .cons _ (.cons _ _) => exact .none
    · have hkids' : ∀ ks, kids' ≠ .arr ks := by
        rintro ks rfl
        cases hkids with
        | same => exact hlist ⟨_, rfl⟩
        | arr => exact hlist ⟨_, rfl⟩
      rw [parseCond_not _ _ _ _ fun ks heq => hlist ⟨ks, heq⟩, parseCond_not _ _ _ _ hkids']
      refine ((hchild kids (Nat.le_refl _) kids' hkids).map hnot).congr ⟨.not, fun h => ?_⟩
      cases h with
      | not h => exact h
      | notList h => exact absurd ⟨_, rfl⟩ hlist
      | kids hop => exact absurd hop (by decide)
      | atom ha => exact absurd (.inl rfl) (ha _ _ rfl)
  · have hapart : ∀ ks ks', List.Forall₂ CondApart ks ks' ↔
        CondApart (.obj [(op, .arr ks)]) (.obj [(op, .arr ks')]) := by
      refine fun ks ks' => ⟨.kids hop, fun h => ?_⟩
      cases h with
      | not h => exact absurd hop (by decide)
      | notList h => exact absurd hop (by decide)
      | kids _ h => exact h
      | atom ha => exact absurd (.inr hop) (ha _ _ rfl)
    by_cases hlist : ∃ ks, kids = .arr ks
    · obtain ⟨ks, rfl⟩ := hlist
      obtain ⟨ks', rfl, hks⟩ := noted_arr hkids
      refine KeptIff.congr ?_ (hapart ks ks')
      have hall : List.Forall₂ (fun k k' => KeptIff (CondApart k k')
          (parseCond maps calls blocks block k) (parseCond maps calls blocks block k')) ks ks' := by
        have hsize : ∀ k ∈ ks, sizeOf k ≤ sizeOf (Json.arr ks) := by
          intro k hk
          have hlt := List.sizeOf_lt_of_mem hk
          simp only [Json.arr.sizeOf_spec]
          omega
        exact ((List.forall₂_and_left _ _).mpr ⟨hsize, hks⟩).imp fun k k' hk =>
          hchild k hk.1 k' hk.2
      cases hks with
      | nil =>
          refine .of_eq ?_ .nil
          rcases hop with rfl | rfl <;> rfl
      | cons =>
          rw [parseCond_kids _ _ _ _ hop, parseCond_kids _ _ _ _ hop]
          apply (KeptIff.mapM hall).map
          split <;> intro cs cs' heq <;> injection heq
    · have hnone : ∀ kids, (¬∃ ks, kids = .arr ks) →
          parseCond maps calls blocks block (.obj [(op, kids)]) = none := by
        intro kids hkids
        cases kids with
        | arr ks => exact absurd ⟨ks, rfl⟩ hkids
        | _ => rcases hop with rfl | rfl <;> rfl
      have hlist' : ¬∃ ks, kids' = .arr ks := by
        rintro ⟨ks, rfl⟩
        cases hkids with
        | same => exact hlist ⟨_, rfl⟩
        | arr => exact hlist ⟨_, rfl⟩
      rw [hnone kids hlist, hnone kids' hlist']
      exact .none

theorem parseCond_noted (c : Json) : ∀ c', Noted c c' →
    KeptIff (CondApart c c') (parseCond maps calls blocks block c)
      (parseCond maps calls blocks block c') := by
  induction hn : sizeOf c using Nat.strong_induction_on generalizing c with
  | _ n ih =>
      subst hn
      intro c' h
      cases c with
      | obj es =>
          obtain ⟨es', rfl, hes⟩ := noted_obj h
          by_cases hcomb : ∃ op kids, es = [(op, kids)] ∧ IsCombinator op
          · obtain ⟨op, kids, rfl, hop⟩ := hcomb
            rcases single_noted hes with ⟨kids', rfl, hkids⟩ | hbeside
            · apply parseCond_inside maps calls blocks block hop hkids
              intro k hk
              have hsize : sizeOf k < sizeOf (Json.obj [(op, kids)]) := by
                simp only [Json.obj.sizeOf_spec, List.cons.sizeOf_spec, Prod.mk.sizeOf_spec]
                omega
              exact ih _ hsize k rfl
            · exact parseCond_beside maps calls blocks block hop hes hbeside
          · have ha : ∀ op k, es = [(op, k)] → ¬ IsCombinator op := fun op k heq hop =>
              hcomb ⟨op, k, heq, hop⟩
            have ha' : ∀ op k, es' = [(op, k)] → ¬ IsCombinator op := by
              rintro op k rfl hop
              obtain ⟨k₀, rfl⟩ := single_of_noted hop hes
              exact ha op k₀ rfl hop
            rw [parseCond_atom _ _ _ _ ha, parseCond_atom _ _ _ _ ha']
            exact ((parseAtom_noted maps calls blocks block hes).map fun _ _ heq =>
              SpecCond.leaf.inj heq).congr (condApart_atom ha)
      | arr xs =>
          obtain ⟨xs', rfl, -⟩ := noted_arr h
          exact .none
      | _ =>
          cases h
          exact .none

/-- The conditions of two nodes stand apart. -/
def NodeApart (v v' : Json) : Prop :=
  ∀ node node', v = .obj node → v' = .obj node' → CondApart (nodeCond node) (nodeCond node')

variable {maps calls blocks}

theorem nodeApart_obj {node node' : List (String × Json)} :
    CondApart (nodeCond node) (nodeCond node') ↔ NodeApart (.obj node) (.obj node') := by
  refine ⟨fun h n n' hn hn' => ?_, fun h => h node node' rfl rfl⟩
  cases hn
  cases hn'
  exact h

theorem parseBlockCondition_noted (name : String) {v v' : Json} (h : Noted v v') :
    KeptIff (NodeApart v v') (parseBlockCondition maps calls blocks name v)
      (parseBlockCondition maps calls blocks name v') := by
  cases v with
  | obj node =>
      obtain ⟨node', rfl, hnode⟩ := noted_obj h
      have hblock := bind_blind (get_noted hnode (k := "block") rfl) blind_toInt
      have hmode := elim_blind (some .exists) (get_noted hnode (k := "assert") rfl) blind_parseMode
      have hcond : Noted (nodeCond node) (nodeCond node') := getD_noted _ (get_noted hnode rfl)
      unfold parseBlockCondition
      simp only [hblock, hmode]
      refine .bind fun block => .bind fun _ => .bind fun mode => ?_
      have hkept := parseCond_noted maps calls blocks (some block) _ _ hcond
      exact (hkept.map fun c c' heq => (SpecBlockCondition.mk.inj heq).2.2.2).congr nodeApart_obj
  | arr xs =>
      obtain ⟨xs', rfl, -⟩ := noted_arr h
      exact .none
  | _ =>
      cases h
      exact .none

theorem parseExitCondition_noted (name : String) {v v' : Json} (h : Noted v v') :
    KeptIff (NodeApart v v') (parseExitCondition maps calls name v)
      (parseExitCondition maps calls name v') := by
  cases v with
  | obj node =>
      obtain ⟨node', rfl, hnode⟩ := noted_obj h
      have hmode := elim_blind (some .exists) (get_noted hnode (k := "assert") rfl) blind_parseMode
      have hcond : Noted (nodeCond node) (nodeCond node') := getD_noted _ (get_noted hnode rfl)
      unfold parseExitCondition
      simp only [hmode]
      refine .bind fun mode => ?_
      have hkept := parseCond_noted maps calls none none _ _ hcond
      exact (hkept.map fun c c' heq => (SpecExitCondition.mk.inj heq).2.2).congr nodeApart_obj
  | arr xs =>
      obtain ⟨xs', rfl, -⟩ := noted_arr h
      exact .none
  | _ =>
      cases h
      exact .none

end Conditions

/-! ## Sections -/

/-- The members of two objects, notes left out, stand apart by `Q`. -/
def SectionApart (Q : Json → Json → Prop) (v v' : Json) : Prop :=
  ∀ es es', v = .obj es → v' = .obj es' →
    List.Forall₂ (fun x x' => Q x.2 x'.2) (named es) (named es')

theorem parseSection_obj {C : Type} (parse : String → Json → Option C)
    (es : List (String × Json)) :
    parseSection parse (.obj es) = (named es).mapM fun x => parse x.1 x.2 := by
  cases es <;> rfl

theorem parseSection_noted {C : Type} {parse : String → Json → Option C} {Q : Json → Json → Prop}
    (hparse : ∀ name v v', Noted v v' → KeptIff (Q v v') (parse name v) (parse name v'))
    {v v' : Json} (h : Noted v v') :
    KeptIff (SectionApart Q v v') (parseSection parse v) (parseSection parse v') := by
  cases v with
  | obj es =>
      obtain ⟨es', rfl, hes⟩ := noted_obj h
      rw [parseSection_obj, parseSection_obj]
      have hall : List.Forall₂ (fun x x' : String × Json => KeptIff (Q x.2 x'.2) (parse x.1 x.2)
          (parse x'.1 x'.2)) (named es) (named es') :=
        (named_noted hes).imp fun x x' hx => hx.1 ▸ hparse x.1 x.2 x'.2 hx.2
      refine (KeptIff.mapM hall).congr ⟨fun h e e' he he' => ?_, fun h => h es es' rfl rfl⟩
      cases he
      cases he'
      exact h
  | arr xs =>
      obtain ⟨xs', rfl, hxs⟩ := noted_arr h
      apply KeptIff.of_eq _ nofun
      cases hxs <;> rfl
  | _ =>
      cases h
      exact .of_eq rfl nofun

/-! ## The input -/

/-- A key that starts with an underscore is no number, so no key of a map. -/
theorem parseMultibyteInt_note {k : String} (hk : isNote k = true) (size : Int) :
    parseMultibyteInt size (.str k) = none := by
  obtain ⟨cs, hcs⟩ : ∃ cs, k.toList = '_' :: cs := by
    unfold isNote at hk
    cases hlist : k.toList with
    | nil => simp [hlist] at hk
    | cons c cs =>
        simp only [hlist, List.head?_cons, Option.some_inj, decide_eq_true_eq] at hk
        exact ⟨cs, by rw [hk]⟩
  obtain ⟨v, hv⟩ : ∃ v, PyStr.strip k.toList = '_' :: v := by
    rw [hcs]
    exact PyStr.stripBy_cons (by decide) cs
  have hbytes : parseStrBytes ('_' :: v) size = none := by
    have hhex : ¬(('_' :: v).take 2 = ['0', 'x'] ∨ ('_' :: v).take 2 = ['0', 'X']) := by
      cases v <;> simp
    obtain ⟨part, rest, hdot⟩ := PyStr.splitOn_underscore '.' (by decide) v
    obtain ⟨part', rest', hcolon⟩ := PyStr.splitOn_underscore ':' (by decide) v
    unfold parseStrBytes
    rw [if_neg hhex, hdot, hcolon, KeptIff.mapM_cons_eq, KeptIff.mapM_cons_eq,
      PyStr.int_underscore, PyStr.int_underscore, PyStr.int16_underscore]
    split
    · rfl
    · split <;> rfl
  have hnone : parseValBytes size (.str k) = none := by
    rw [← hbytes, ← hv]
    rfl
  rw [parseMultibyteInt, hnone]
  rfl

theorem mapM_eq_none_of_mem {α β : Type} {f : α → Option β} {xs : List α} {x : α} (hx : x ∈ xs)
    (hnone : f x = none) : xs.mapM f = none := by
  induction xs with
  | nil => cases hx
  | cons y ys ih =>
      rw [KeptIff.mapM_cons_eq]
      rcases List.mem_cons.mp hx with rfl | hmem
      · rw [hnone]
        rfl
      · rw [ih hmem]
        cases f y <;> rfl

/-- No note is among the entries of a map. -/
def PlainEntries (v : Json) : Prop :=
  ∀ es, v = .obj es → ∀ x ∈ es, isNote x.1 = false

theorem parseEntries_obj (m : MapDef) (es : List (String × Json)) :
    parseEntries m (.obj es) = (es.mapM (parseEntry m)).map Dict.ofList := by
  cases es <;> rfl

theorem parseEntry_note (m : MapDef) {x : String × Json} (hx : isNote x.1 = true) :
    parseEntry m x = none := by
  rw [parseEntry, parseMultibyteInt_note hx]
  rfl

/-- Without notes the entries are read as before. -/
theorem mapM_plain {α : Type} {f : String × Json → Option α} {es es' : List (String × Json)}
    (hf : ∀ k v v', Noted v v' → f (k, v') = f (k, v)) (h : NotedEntries Noted es es')
    (hplain : ∀ x ∈ es', isNote x.1 = false) : es'.mapM f = es.mapM f := by
  induction h with
  | nil => rfl
  | keep k hv _ ih =>
      rw [KeptIff.mapM_cons_eq, KeptIff.mapM_cons_eq, hf k _ _ hv,
        ih fun x hx => hplain x (List.mem_cons_of_mem _ hx)]
  | note hk v _ _ =>
      have hnot := hplain _ (List.mem_cons_self ..)
      rw [hk] at hnot
      cases hnot

theorem parseEntries_plain (m : MapDef) {v v' : Json} (h : Noted v v') (hplain : PlainEntries v') :
    parseEntries m v' = parseEntries m v := by
  cases v with
  | obj es =>
      obtain ⟨es', rfl, hes⟩ := noted_obj h
      have hentry : ∀ k v v', Noted v v' → parseEntry m (k, v') = parseEntry m (k, v) := by
        intro k v v' hv
        simp only [parseEntry, blind_parseMultibyteInt m.valueSize v v' hv]
      rw [parseEntries_obj, parseEntries_obj, mapM_plain hentry hes (hplain es' rfl)]
  | arr xs =>
      obtain ⟨xs', rfl, hxs⟩ := noted_arr h
      cases hxs <;> rfl
  | _ =>
      cases h
      rfl

theorem parseEntries_note (m : MapDef) {v : Json} (hnote : ¬ PlainEntries v) :
    parseEntries m v = none := by
  simp only [PlainEntries, not_forall] at hnote
  obtain ⟨es, rfl, x, hx, hk⟩ := hnote
  rw [parseEntries_obj, mapM_eq_none_of_mem hx (parseEntry_note m (by simpa using hk))]
  rfl

/-- No note is among the entries of the maps of an input. -/
def InputApart (v : Json) : Prop :=
  ∀ a ms, v = .obj a → Json.get a "maps" = some (.obj ms) → ∀ x ∈ named ms, PlainEntries x.2

section Input

variable (maps : Option (List MapDef))

theorem parseMapValues_obj (ms : List (String × Json)) :
    parseMapValues maps (.obj ms) = ((named ms).mapM (parseMapValue maps)).map Dict.ofList := by
  cases ms <;> rfl

theorem parseMapValues_plain {v v' : Json} (h : Noted v v')
    (hplain : ∀ ms, v' = .obj ms → ∀ x ∈ named ms, PlainEntries x.2) :
    parseMapValues maps v' = parseMapValues maps v := by
  cases v with
  | obj ms =>
      obtain ⟨ms', rfl, hms⟩ := noted_obj h
      have hall : (named ms').mapM (parseMapValue maps) = (named ms).mapM (parseMapValue maps) := by
        have hmem := hplain ms' rfl
        have hnamed := named_noted hms
        generalize named ms = ns, named ms' = ns' at hmem hnamed ⊢
        induction hnamed with
        | nil => rfl
        | @cons x x' _ _ hx _ ih =>
            have hvalue : parseMapValue maps x' = parseMapValue maps x := by
              simp only [parseMapValue, ← hx.1,
                parseEntries_plain _ hx.2 (hmem x' (List.mem_cons_self ..))]
            rw [KeptIff.mapM_cons_eq, KeptIff.mapM_cons_eq, hvalue,
              ih fun y hy => hmem y (List.mem_cons_of_mem _ hy)]
      rw [parseMapValues_obj, parseMapValues_obj, hall]
  | arr xs =>
      obtain ⟨xs', rfl, hxs⟩ := noted_arr h
      cases hxs <;> rfl
  | _ =>
      cases h
      rfl

theorem parseMapValues_note {ms : List (String × Json)} {x : String × Json} (hx : x ∈ named ms)
    (hnote : ¬ PlainEntries x.2) : parseMapValues maps (.obj ms) = none := by
  have hnone : parseMapValue maps x = none := by
    unfold parseMapValue
    simp [parseEntries_note _ hnote]
  rw [parseMapValues_obj, mapM_eq_none_of_mem hx hnone]
  rfl

theorem ctxValue_obj (es : List (String × Json)) (name : String) :
    ctxValue (.obj es) name = some (Json.get es name) := by
  cases es <;> rfl

theorem ctxInt_noted (name : String) (hname : isNote name = false) {ctx ctx' : Json}
    (h : Noted ctx ctx') : ctxInt ctx' name = ctxInt ctx name := by
  cases h with
  | same => rfl
  | @arr xs xs' hxs =>
      have hmem : xs'.any (·.str? = some name) = xs.any (·.str? = some name) := by
        induction hxs with
        | nil => rfl
        | cons hx _ ih => rw [List.any_cons, List.any_cons, blind_str _ _ hx, ih]
      have htruthy : (Json.arr xs').truthy = (Json.arr xs).truthy := by
        cases hxs <;> rfl
      simp only [ctxInt, ctxValue, hmem, htruthy]
  | @obj es es' hes =>
      unfold ctxInt
      rw [ctxValue_obj, ctxValue_obj]
      have hget := get_noted hes hname
      generalize Json.get es name = x, Json.get es' name = x' at hget ⊢
      cases hget with
      | none => rfl
      | some hv =>
          show (parseInt _).map some = (parseInt _).map some
          rw [blind_parseInt _ _ hv]

theorem parseInput_noted {F : Type} (scapy : Scapy F) {v v' : Json} (h : Noted v v') :
    KeptIff (InputApart v') (parseInput scapy maps v) (parseInput scapy maps v') := by
  cases v with
  | obj a =>
      obtain ⟨a', rfl, ha⟩ := noted_obj h
      have hpacket := mapM_noted (get_noted ha (k := "packet") rfl) (f := packetFacts scapy)
        (blind_of_alike (fun _ _ => rfl) fun _ _ => rfl)
      have hctx := getD_noted (.obj []) (get_noted ha (k := "context") rfl)
      have hmaps := getD_noted .null (get_noted ha (k := "maps") rfl)
      by_cases hplain : InputApart (.obj a')
      · have hvalues := parseMapValues_plain maps hmaps fun ms hms x hx => by
          cases hget : Json.get a' "maps" with
          | none =>
              rw [hget] at hms
              cases hms
          | some v =>
              rw [hget, Option.getD_some] at hms
              exact hplain a' ms rfl (hms ▸ hget) x hx
        apply KeptIff.of_eq _ hplain
        simp only [parseInput, hpacket, hvalues, ctxInt_noted "pkt_len" rfl hctx,
          ctxInt_noted "ingress_ifindex" rfl hctx, ctxInt_noted "rx_queue_index" rfl hctx,
          ctxInt_noted "egress_ifindex" rfl hctx]
      · have hnote := hplain
        simp only [InputApart, not_forall] at hnote
        obtain ⟨_, ms, heq, hget, x, hx, hnote⟩ := hnote
        cases heq
        apply KeptIff.of_none _ hplain
        simp [parseInput, hget, parseMapValues_note maps hx hnote]
  | arr xs =>
      obtain ⟨xs', rfl, -⟩ := noted_arr h
      exact .none
  | _ =>
      cases h
      exact .none

end Input

/-! ## Specifications -/

/-- The notes of a specification stand apart from what its parser reads: there is none among
the entries of a map or beside a combinator, and none that changes whether an object asks
for the presence of a key, or that stands inside a bound of a length. -/
def NotesApart (raw raw' : Json) : Prop :=
  ∀ a a', raw = .obj a → raw' = .obj a' →
    (∀ v, Json.get a' "input" = some v → InputApart v) ∧
      SectionApart NodeApart ((Json.get a "block_conditions").getD .null)
        ((Json.get a' "block_conditions").getD .null) ∧
      SectionApart NodeApart ((Json.get a "exit_conditions").getD .null)
        ((Json.get a' "exit_conditions").getD .null)

section Spec

variable {F : Type} (scapy : Scapy F) (maps : Option (List MapDef))
  (calls : Option (Dict Int CallRecord)) (blocks : Option (List Block))

theorem optInput_noted {x x' : Option Json} (h : Option.Rel Noted x x') :
    KeptIff (∀ v, x' = some v → InputApart v) (x.mapM (parseInput scapy maps))
      (x'.mapM (parseInput scapy maps)) := by
  cases h with
  | none => exact .of_eq rfl nofun
  | @some v v' h =>
      have hkept := (parseInput_noted maps scapy h).map fun _ _ heq => Option.some_inj.mp heq
      exact hkept.congr ⟨fun hv w hw => Option.some_inj.mp hw ▸ hv, fun hv => hv v' rfl⟩

theorem parseSpec_noted {raw raw' : Json} (h : Noted raw raw') :
    KeptIff (NotesApart raw raw') (parseSpec maps calls blocks scapy raw)
      (parseSpec maps calls blocks scapy raw') := by
  cases raw with
  | obj a =>
      obtain ⟨a', rfl, ha⟩ := noted_obj h
      have hknown : ((named a').all fun x => TOP_LEVEL_KEYS.contains x.1) =
          (named a).all fun x => TOP_LEVEL_KEYS.contains x.1 := by
        have hnamed := named_noted ha
        generalize named a = ns, named a' = ns' at hnamed ⊢
        induction hnamed with
        | nil => rfl
        | cons hx _ ih => rw [List.all_cons, List.all_cons, ih, hx.1]
      have hsome : TOP_LEVEL_KEYS.any (hasKey a') = TOP_LEVEL_KEYS.any (hasKey a) := by
        have hkey : ∀ k, isNote k = false → hasKey a' k = hasKey a k := fun k hk =>
          isSome_noted (get_noted ha hk)
        simp only [TOP_LEVEL_KEYS, List.any_cons, List.any_nil, hkey "input" rfl,
          hkey "block_conditions" rfl, hkey "exit_conditions" rfl]
      have hinput := optInput_noted scapy maps (get_noted ha (k := "input") rfl)
      have hblock : ∀ name v v', Noted v v' → KeptIff (NodeApart v v')
          (parseBlockCondition maps calls blocks name v)
          (parseBlockCondition maps calls blocks name v') := fun name _ _ =>
        parseBlockCondition_noted name
      have hexit : ∀ name v v', Noted v v' → KeptIff (NodeApart v v')
          (parseExitCondition maps calls name v) (parseExitCondition maps calls name v') :=
        fun name _ _ => parseExitCondition_noted name
      have hblocks := parseSection_noted hblock
        (getD_noted .null (get_noted ha (k := "block_conditions") rfl))
      have hexits := parseSection_noted hexit
        (getD_noted .null (get_noted ha (k := "exit_conditions") rfl))
      have hparts := hinput.map₃ (f := Policy.mk) hblocks hexits
        fun _ _ _ _ _ _ heq => Policy.mk.inj heq
      have hapart := hparts.congr (Q := NotesApart (.obj a) (.obj a')) (by
        refine ⟨fun hall e e' he he' => ?_, fun hall => hall a a' rfl rfl⟩
        cases he
        cases he'
        exact hall)
      simp only [parseSpec, hknown, hsome]
      split
      · exact .none
      · split
        · exact .none
        · exact hapart
  | arr xs =>
      obtain ⟨xs', rfl, -⟩ := noted_arr h
      exact .none
  | _ =>
      cases h
      exact .none

/-- A rejected specification is rejected with notes in it as well, and of an accepted one
the same policy is read exactly if the notes stand apart. -/
theorem notes_ignored_iff {raw raw' : Json} (h : Noted raw raw') :
    (NotesApart raw raw' →
        parseSpec maps calls blocks scapy raw' = parseSpec maps calls blocks scapy raw) ∧
      (parseSpec maps calls blocks scapy raw = none →
        parseSpec maps calls blocks scapy raw' = none) ∧
      ∀ p, parseSpec maps calls blocks scapy raw = some p →
        (parseSpec maps calls blocks scapy raw' = some p ↔ NotesApart raw raw') :=
  have hkept := parseSpec_noted scapy maps calls blocks h
  ⟨hkept.eq, hkept.absent, hkept.kept⟩

end Spec

section Examples

/-- A packet library that knows no packet. -/
def noScapy : Scapy Unit := ⟨fun _ => none, fun _ => false, fun p _ => p⟩

/-- A specification with one condition of an exit. -/
def exitSpec (notes : List (String × Json)) (cond : Json) : Json :=
  .obj (notes ++ [("exit_conditions", .obj (notes ++ [("pass", .obj (notes ++ [("cond", cond)]))]))])

theorem noted_exitSpec {notes : List (String × Json)} (hnotes : ∀ x ∈ notes, isNote x.1 = true)
    {cond cond' : Json} (h : Noted cond cond') :
    Noted (exitSpec [] cond) (exitSpec notes cond') := by
  have hone : ∀ {k : String} {v v' : Json}, Noted v v' →
      NotedEntries Noted [(k, v)] (notes ++ [(k, v')]) := by
    intro k v v' hv
    induction notes with
    | nil => exact .keep k hv .nil
    | cons x notes ih => exact .note (hnotes x (by simp)) x.2 (ih fun y hy => hnotes y (by simp [hy]))
  exact .obj (hone (.obj (hone (.obj (hone h)))))

/-- Notes at the top, among the conditions, in a condition and in its atom. -/
theorem notes_ignored_iff_returns :
    parseSpec none none none noScapy
        (exitSpec [("_doc", .str "return values")] (.obj [("ret", .int 2), ("_why", .null)])) =
      parseSpec none none none noScapy (exitSpec [] (.obj [("ret", .int 2)])) := by
  have hnoted : Noted (exitSpec [] (.obj [("ret", .int 2)]))
      (exitSpec [("_doc", .str "return values")] (.obj [("ret", .int 2), ("_why", .null)])) :=
    noted_exitSpec (by simp; rfl) (.obj (.keep "ret" (.same _) (.note rfl _ .nil)))
  apply (notes_ignored_iff noScapy none none none hnoted).1
  rintro a a' ha ha'
  cases ha
  cases ha'
  refine ⟨nofun, nofun, fun es es' hes hes' => ?_⟩
  cases hes
  cases hes'
  refine .cons (fun node node' hnode hnode' => ?_) .nil
  cases hnode
  cases hnode'
  refine .atom (fun op k heq => ?_) trivial
  cases heq
  exact fun hop => absurd hop (by unfold IsCombinator; decide)

/-- A note beside a combinator makes the parser reject the specification. -/
theorem note_beside_combinator :
    ∃ raw raw', Noted raw raw' ∧ parseSpec none none none noScapy raw ≠ none ∧
      parseSpec none none none noScapy raw' = none := by
  refine ⟨exitSpec [] (.obj [("and", .arr [.obj [("ret", .int 2)]])]),
    exitSpec [] (.obj [("and", .arr [.obj [("ret", .int 2)]]), ("_why", .str "a drop")]),
    noted_exitSpec (by simp) (.obj (.keep "and" (.same _) (.note rfl _ .nil))), ?_, rfl⟩
  exact Option.isSome_iff_ne_none.mp rfl

end Examples

end Hornet
