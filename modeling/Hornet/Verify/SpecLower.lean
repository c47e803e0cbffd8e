import Hornet.Verify.SpecNotes

/-!
The conditions of a specification as they are lowered after parsing, and the Boolean
reading of a tree of conditions.
-/

namespace Hornet

open Lib Smt

/-- What the lowering of a condition raises. -/
inductive CondError where
  | lower (e : LowerError)
  /-- A sort of no bits, or a value that is no numeral. -/
  | solver
  deriving DecidableEq, Repr

section Lower

variable {maps : List MapInfo} (numeral : Json → Option Int) (st : CondState maps)

/-- A bound of a length: `numeral` is what the solver makes of a value that it is given as
a numeral. -/
def lenBound (v : Json) : Except CondError (Option Int) :=
  if v.isNull then pure none
  else
    match numeral v with
    | some n => pure (some n)
    | none => throw .solver

/-- The atom with its literals as the solver takes them. A byte of a packet atom is cut
down to eight bits. -/
def SpecAtom.toAtom : SpecAtom → Except CondError Atom
  | .pkt offset _ data op => pure (.pkt offset (data.map fun b => (b % 256).toNat) op)
  | .map mapId key present value keySize valueSize =>
      if keySize = 0 then throw .solver
      else pure (.map mapId key present (value.map Int.ofNat) keySize valueSize)
  | .bss sym offset size value op => pure (.bss sym offset size.toNat value op)
  | .len min max => do
      let lo ← lenBound numeral min
      let hi ← lenBound numeral max
      pure (.len lo hi)
  | .scalar target value => pure (.scalar target value)
  | .helperScalar _ _ _ op value retval => pure (.helperScalar retval op value)
  | .helperNull _ _ result mapId mapKey mapKeyId =>
      pure (.helperNull mapId mapKey mapKeyId result)
  | .ret op value => pure (.ret op value)
  | .read parts op target _ _ _ _ => pure (.read parts op target)

def SpecAtom.toZ3 (atom : SpecAtom) : Except CondError (ZTerm .bool) := do
  let a ← atom.toAtom numeral
  (a.toZ3 st).mapError .lower

mutual

def SpecCond.toZ3 : SpecCond → Except CondError (ZTerm .bool)
  | .leaf atom => atom.toZ3 numeral st
  | .not child => do
      let t ← child.toZ3
      pure (.not t)
  | .and children => do
      let ts ← SpecCond.toZ3List children
      pure (andTerms ts)
  | .or children => do
      let ts ← SpecCond.toZ3List children
      pure (orTermsAny ts)

def SpecCond.toZ3List : List SpecCond → Except CondError (List (ZTerm .bool))
  | [] => pure []
  | c :: cs => do
      let t ← c.toZ3
      let ts ← SpecCond.toZ3List cs
      pure (t :: ts)

end

end Lower

/-! ## Trees of conditions -/

/-- A condition as a specification writes it. The child of `not` may stand in a list. -/
inductive CondTree where
  | atom (a : List (String × Json))
  | not (listed : Bool) (child : CondTree)
  | and (children : List CondTree)
  | or (children : List CondTree)

namespace CondTree

mutual

def json : CondTree → Json
  | .atom a => .obj a
  | .not listed child =>
      .obj [("not", if listed then .arr [child.json] else child.json)]
  | .and children => .obj [("and", .arr (jsonList children))]
  | .or children => .obj [("or", .arr (jsonList children))]

def jsonList : List CondTree → List Json
  | [] => []
  | c :: cs => c.json :: jsonList cs

end

section Reading

variable (atomHolds : List (String × Json) → Bool)

mutual

/-- The Boolean value of a tree, with `emptyOr` for a disjunction of nothing. -/
def holds (emptyOr : Bool) : CondTree → Bool
  | .atom a => atomHolds a
  | .not _ child => !holds emptyOr child
  | .and children => allHold emptyOr children
  | .or children => if children.isEmpty then emptyOr else anyHolds emptyOr children

def allHold (emptyOr : Bool) : List CondTree → Bool
  | [] => true
  | c :: cs => holds emptyOr c && allHold emptyOr cs

def anyHolds (emptyOr : Bool) : List CondTree → Bool
  | [] => false
  | c :: cs => holds emptyOr c || anyHolds emptyOr cs

end

end Reading

mutual

/-- All atoms of the tree are of a kind. -/
def Atoms (P : List (String × Json) → Prop) : CondTree → Prop
  | .atom a => P a
  | .not _ child => Atoms P child
  | .and children | .or children => AtomsOf P children

def AtomsOf (P : List (String × Json) → Prop) : List CondTree → Prop
  | [] => True
  | c :: cs => Atoms P c ∧ AtomsOf P cs

end

mutual

/-- No disjunction of nothing is in the tree. -/
def OrsGiven : CondTree → Prop
  | .atom _ => True
  | .not _ child => OrsGiven child
  | .and children => OrsGivenOf children
  | .or children => children ≠ [] ∧ OrsGivenOf children

def OrsGivenOf : List CondTree → Prop
  | [] => True
  | c :: cs => OrsGiven c ∧ OrsGivenOf cs

end

mutual

/-- Without a disjunction of nothing its value does not matter. -/
theorem holds_given (atomHolds : List (String × Json) → Bool) (e e' : Bool) :
    ∀ {tree : CondTree}, tree.OrsGiven → tree.holds atomHolds e = tree.holds atomHolds e'
  | .atom _, _ => rfl
  | .not _ child, h => by
      have hchild : child.OrsGiven := h
      unfold holds
      rw [holds_given atomHolds e e' hchild]
  | .and children, h => by
      unfold holds
      exact (holdsOf_given atomHolds e e' h).1
  | .or children, h => by
      unfold holds
      rw [if_neg (by simpa using h.1), if_neg (by simpa using h.1)]
      exact (holdsOf_given atomHolds e e' h.2).2

theorem holdsOf_given (atomHolds : List (String × Json) → Bool) (e e' : Bool) :
    ∀ {children : List CondTree}, OrsGivenOf children →
      allHold atomHolds e children = allHold atomHolds e' children ∧
      anyHolds atomHolds e children = anyHolds atomHolds e' children
  | [], _ => ⟨rfl, rfl⟩
  | c :: cs, h => by
      obtain ⟨hall, hany⟩ := holdsOf_given atomHolds e e' h.2
      unfold allHold anyHolds
      rw [holds_given atomHolds e e' h.1, hall, hany]
      exact ⟨rfl, rfl⟩

end

theorem exists_json (tree : CondTree) : ∃ a, tree.json = .obj a := by
  cases tree <;> exact ⟨_, rfl⟩

end CondTree

section Reading

variable {maps : List MapInfo} (numeral : Json → Option Int) (st : CondState maps) (m : ZModel)
variable (defs : Option (List MapDef)) (calls : Option (Dict Int CallRecord))
variable (blocks : Option (List Block)) (block : Option Int)

/-- An atom that the parser accepts and whose formula has a value. -/
def AtomReads (atomHolds : List (String × Json) → Bool) (a : List (String × Json)) : Prop :=
  ∃ atom t, parseAtom defs calls blocks block a = some atom ∧ atom.toZ3 numeral st = .ok t ∧
    t.eval m = atomHolds a

/-- A condition is parsed to one whose formula has a value. -/
def CondReads (c : Json) (value : Bool) : Prop :=
  ∃ cond t, parseCond defs calls blocks block c = some cond ∧ cond.toZ3 numeral st = .ok t ∧
    t.eval m = value

/-- A list of conditions, whose formulas have the values of a conjunction and of a
disjunction. -/
def CondsRead (cs : List Json) (all any : Bool) : Prop :=
  ∃ conds ts, parseConds defs calls blocks block cs = some conds ∧
    SpecCond.toZ3List numeral st conds = .ok ts ∧
    ts.all (·.eval m) = all ∧ ts.any (·.eval m) = any

variable {numeral st m defs calls blocks block}

theorem condReads_atom {atomHolds : List (String × Json) → Bool} {a : List (String × Json)}
    (h : AtomReads numeral st m defs calls blocks block atomHolds a) :
    CondReads numeral st m defs calls blocks block (.obj a) (atomHolds a) := by
  obtain ⟨atom, t, hatom, ht, heval⟩ := h
  refine ⟨.leaf atom, t, ?_, ht, heval⟩
  rw [parseCond_atom, hatom]
  · rfl
  · intro op k ha hop
    rw [ha, parseAtom_combinator _ _ _ _ hop k] at hatom
    cases hatom

theorem condReads_not {a : List (String × Json)} {value : Bool} (listed : Bool)
    (h : CondReads numeral st m defs calls blocks block (.obj a) value) :
    CondReads numeral st m defs calls blocks block
      (.obj [("not", if listed then .arr [.obj a] else .obj a)]) !value := by
  obtain ⟨cond, t, hcond, ht, heval⟩ := h
  refine ⟨.not cond, .not t, ?_, ?_, ?_⟩
  · cases listed with
    | false =>
        rw [if_neg (by simp), parseCond_not _ _ _ _ (by simp), hcond]
        rfl
    | true =>
        rw [if_pos rfl]
        show (parseCond defs calls blocks block (.obj a)).map SpecCond.not = _
        rw [hcond]
        rfl
  · unfold SpecCond.toZ3
    rw [ht]
    rfl
  · rw [Term.eval_not, heval]

/-- A list of conditions is parsed to a conjunction or to a disjunction; the empty list to
a conjunction in both cases. -/
theorem condReads_kids {op : String} (hop : op = "and" ∨ op = "or") {ks : List Json} {all any : Bool}
    (h : CondsRead numeral st m defs calls blocks block ks all any) :
    CondReads numeral st m defs calls blocks block (.obj [(op, .arr ks)])
      (if op = "and" ∨ ks = [] then all else any) := by
  obtain ⟨conds, ts, hconds, hts, hall, hany⟩ := h
  cases ks with
  | nil =>
      obtain rfl : [] = conds := Option.some.inj hconds
      obtain rfl : [] = ts := Except.ok.inj hts
      rw [if_pos (.inr rfl)]
      refine ⟨.and [], .boolVal true, ?_, rfl, hall⟩
      rcases hop with rfl | rfl <;> rfl
  | cons k ks =>
      have hparse := parseCond_kids defs calls blocks block hop k ks
      rw [← parseConds_eq_mapM, hconds] at hparse
      refine ⟨_, if op = "and" then andTerms ts else orTermsAny ts, hparse, ?_, ?_⟩
      · rcases hop with rfl | rfl
        · show (SpecCond.and conds).toZ3 numeral st = _
          unfold SpecCond.toZ3
          rw [hts]
          rfl
        · show (SpecCond.or conds).toZ3 numeral st = _
          unfold SpecCond.toZ3
          rw [hts]
          rfl
      · rcases hop with rfl | rfl
        · rw [if_pos rfl, if_pos (.inl rfl), eval_andTerms, hall]
        · rw [if_neg (by decide), if_neg (by simp), eval_orTermsAny, hany]

mutual

/-- The formula of a tree has the value that the tree has if a disjunction of nothing
counts as true. -/
theorem condReads_tree {atomHolds : List (String × Json) → Bool} :
    ∀ {tree : CondTree}, tree.Atoms (AtomReads numeral st m defs calls blocks block atomHolds) →
      CondReads numeral st m defs calls blocks block tree.json (tree.holds atomHolds true)
  | .atom a, h => by
      unfold CondTree.json CondTree.holds
      exact condReads_atom h
  | .not listed child, h => by
      obtain ⟨a, ha⟩ := child.exists_json
      have hatoms : child.Atoms (AtomReads numeral st m defs calls blocks block atomHolds) := h
      have hchild := condReads_tree hatoms
      unfold CondTree.json CondTree.holds
      rw [ha] at hchild ⊢
      exact condReads_not listed hchild
  | .and children, h => by
      unfold CondTree.json CondTree.holds
      have hkids := condReads_kids (.inl rfl) (condsRead_trees h)
      rwa [if_pos (.inl rfl)] at hkids
  | .or children, h => by
      unfold CondTree.json CondTree.holds
      have hkids := condReads_kids (.inr rfl) (condsRead_trees h)
      cases children with
      | nil => exact hkids
      | cons c cs => exact hkids

theorem condsRead_trees {atomHolds : List (String × Json) → Bool} :
    ∀ {children : List CondTree},
      CondTree.AtomsOf (AtomReads numeral st m defs calls blocks block atomHolds) children →
      CondsRead numeral st m defs calls blocks block (CondTree.jsonList children)
        (CondTree.allHold atomHolds true children) (CondTree.anyHolds atomHolds true children)
  | [], _ => ⟨[], [], rfl, rfl, rfl, rfl⟩
  | c :: cs, h => by
      obtain ⟨cond, t, hcond, ht, heval⟩ := condReads_tree h.1
      obtain ⟨conds, ts, hconds, hts, hall, hany⟩ := condsRead_trees h.2
      refine ⟨cond :: conds, t :: ts, ?_, ?_, ?_, ?_⟩
      · unfold CondTree.jsonList parseConds
        rw [hcond, hconds]
        rfl
      · unfold SpecCond.toZ3List
        rw [ht, hts]
        rfl
      · unfold CondTree.allHold
        rw [List.all_cons, heval, hall]
      · unfold CondTree.anyHolds
        rw [List.any_cons, heval, hany]

end

/-- A tree of accepted atoms is accepted and lowered, and its formula has the tree's
Boolean value exactly when that does not change with a disjunction of nothing taken to be
true. -/
theorem cond_tree_reads_iff (numeral : Json → Option Int) (st : CondState maps) (m : ZModel)
    (defs : Option (List MapDef)) (calls : Option (Dict Int CallRecord))
    (blocks : Option (List Block)) (block : Option Int) (atomHolds : List (String × Json) → Bool)
    (tree : CondTree)
    (hatoms : tree.Atoms (AtomReads numeral st m defs calls blocks block atomHolds)) :
    ∃ cond t, parseCond defs calls blocks block tree.json = some cond ∧
      cond.toZ3 numeral st = .ok t ∧
      ((t.eval m = tree.holds atomHolds false) ↔
        tree.holds atomHolds true = tree.holds atomHolds false) := by
  obtain ⟨cond, t, hcond, ht, heval⟩ := condReads_tree hatoms
  refine ⟨cond, t, hcond, ht, ?_⟩
  rw [heval]

end Reading

/-- The state at an exit of a program without maps that returns `r0`. -/
def bareExit : CondState [] where
  reads := none
  block := none
  sigma := makeInitState []
  readLoc _ := throw .noEncoding

/-- Whether an atom about the return value asks for 2. -/
def asksTwo (a : List (String × Json)) : Bool :=
  match Json.get a "ret" with
  | some (.int n) => n = 2
  | _ => false

/-- `{"or": [{"ret": 2}, {"not": [{"ret": 1}]}]}` where `r0` is 2. -/
theorem cond_tree_reads_iff_ret : ∃ cond t,
    parseCond none none none none
      (CondTree.or [.atom [("ret", .int 2)], .not true (.atom [("ret", .int 1)])]).json = some cond ∧
    cond.toZ3 (fun _ => none) bareExit = .ok t ∧
    ((t.eval (Model.ofNats fun v => if v = .r0 then some 2 else none) = true) ↔ true = true) := by
  have htwo : AtomReads (fun _ => none) bareExit
      (Model.ofNats fun v => if v = .r0 then some 2 else none) none none none none asksTwo
      [("ret", .int 2)] := ⟨.ret .eq 2, _, rfl, rfl, rfl⟩
  have hone : AtomReads (fun _ => none) bareExit
      (Model.ofNats fun v => if v = .r0 then some 2 else none) none none none none asksTwo
      [("ret", .int 1)] := ⟨.ret .eq 1, _, rfl, rfl, rfl⟩
  exact cond_tree_reads_iff _ _ _ _ _ _ _ asksTwo
    (.or [.atom [("ret", .int 2)], .not true (.atom [("ret", .int 1)])]) ⟨htwo, hone, trivial⟩

/-- `{"or": []}` is accepted and its formula is true. -/
theorem cond_tree_reads_violated : ∃ cond t,
    parseCond none none none none (CondTree.or []).json = some cond ∧
    cond.toZ3 (fun _ => none) bareExit = .ok t ∧
    t.eval (Model.ofNats fun _ => none) ≠ (CondTree.or []).holds (fun _ => false) false :=
  ⟨.and [], .boolVal true, rfl, rfl, by decide⟩

end Hornet
