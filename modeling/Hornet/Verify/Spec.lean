import Hornet.Verify.Forward

/-!
The conditions of a specification and their terms in a state of the walk. A
condition is a tree of atoms; it is asked of the state at the end of a block, or
of that state together with the return value at an exit.
-/

namespace Hornet

open Smt

/-- What a condition is lowered in: a state, the hooks, and how single bytes of it
are read. -/
structure CondState (maps : List MapInfo) where
  reads : Option (Reads maps)
  block : Option Nat
  sigma : Z3State maps
  readLoc : Loc → Except LowerError (ZTerm (.bv 8))

inductive EqOp where
  | eq | ne
  deriving DecidableEq, Repr

def EqOp.apply (t : ZTerm .bool) : EqOp → ZTerm .bool
  | .eq => t
  | .ne => .not t

inductive RelOp where
  | eq | ne | lt | le | gt | ge
  deriving DecidableEq, Repr

def RelOp.term {w : Nat} (v rhs : ZTerm (.bv w)) : RelOp → ZTerm .bool
  | .eq => .cmp .eq v rhs
  | .ne => .not (.cmp .eq v rhs)
  | .lt => .cmp .ult v rhs
  | .le => .cmp .ule v rhs
  | .gt => .cmp .ult rhs v
  | .ge => .cmp .ule rhs v

inductive CtxTarget where
  | ingress | rxIndex | egress
  deriving DecidableEq, Repr

inductive Atom where
  /-- The bytes from an offset; their number is the size of the atom. -/
  | pkt (offset : Int) (data : List Nat) (op : EqOp)
  | map (mapId : Nat) (key : Int) (present : Option Bool) (value : Option Int)
      (keySize valueSize : Nat)
  | bss (sym : String) (offset : Int) (size : Nat) (value : Int) (op : EqOp)
  | len (min max : Option Int)
  | scalar (target : CtxTarget) (value : Int)
  | helperScalar (retval : Expr) (op : RelOp) (value : Int)
  | helperNull (mapId : Option Nat) (mapKey : Option Expr) (mapKeyId : Option Int)
      (result : Bool)
  | ret (op : RelOp) (value : Int)
  | read (parts : List (Expr × Nat)) (op : EqOp) (target : Int)

inductive CondNode where
  | leaf (atom : Atom)
  | not (child : CondNode)
  | and (children : List CondNode)
  | or (children : List CondNode)

/-- `And` of any number of terms. -/
def andTerms : List (ZTerm .bool) → ZTerm .bool
  | [] => .boolVal true
  | t :: ts => ts.foldl .and t

/-- `Or` of any number of terms. -/
def orTermsAny : List (ZTerm .bool) → ZTerm .bool
  | [] => .boolVal false
  | t :: ts => ts.foldl .or t

theorem eval_andTerms (m : ZModel) (ts : List (ZTerm .bool)) :
    (andTerms ts).eval m = ts.all (·.eval m) := by
  cases ts with
  | nil => rfl
  | cons t ts =>
      unfold andTerms
      dsimp only
      induction ts generalizing t with
      | nil => simp
      | cons u us ih =>
          rw [List.foldl_cons, ih]
          simp [Bool.and_assoc]

theorem eval_orTermsAny (m : ZModel) (ts : List (ZTerm .bool)) :
    (orTermsAny ts).eval m = ts.any (·.eval m) := by
  cases ts with
  | nil => rfl
  | cons t ts =>
      unfold orTermsAny
      dsimp only
      induction ts generalizing t with
      | nil => simp
      | cons u us ih =>
          rw [List.foldl_cons, ih]
          simp [Bool.or_assoc]

/-- A guard as a term of the solver. -/
def Guard.toTerm : Guard → ZTerm .bool
  | .tt => .boolVal true
  | .ff => .boolVal false
  | .term t => t

section Atoms

variable {maps : List MapInfo} (st : CondState maps)

/-- The `size` bytes of a location, lowest first. -/
def CondState.readBytes (loc : Loc) (size : Nat) : Except LowerError (List ZBv) :=
  (List.range size).mapM fun (i : Nat) => do
    let b ← st.readLoc { loc with off := loc.off + i, size := 1 }
    pure ⟨8, b⟩

/-- Whether the bytes of a location, as one number, are `value`. -/
def CondState.bytesEq (loc : Loc) (size : Nat) (value : Int) :
    Except LowerError (ZTerm .bool) := do
  let cells ← st.readBytes loc size
  let got ← concatCells cells
  pure (.cmp .eq got.term (bvVal value got.size))

def Atom.toZ3 : Atom → Except LowerError (ZTerm .bool)
  | .pkt offset data op => do
      let eqs ← data.zipIdx.mapM fun x => do
        let b ← st.readLoc ⟨.PKT, offset + x.2, 1, none, none, none⟩
        pure (Term.cmp .eq b (bvVal x.1 8))
      pure (op.apply (andTerms eqs))
  | .map mapId key present value keySize valueSize => do
      let keyExpr := Expr.num key keySize (-1)
      let hit ← Condition.toZ3 st.reads st.block st.sigma
        (.containMapValue (some mapId) (some keyExpr) none true)
      match value with
      | some value => do
          let eq ← st.bytesEq ⟨.MAP, 0, 1, some mapId, some keyExpr, none⟩ valueSize value
          pure (.and hit.toTerm eq)
      | none => pure (if present = some true then hit.toTerm else .not hit.toTerm)
  | .bss sym offset size value op => do
      let eq ← st.bytesEq ⟨.BSS, offset, 1, none, none, some sym⟩ size value
      pure (op.apply eq)
  | .len min max =>
      match (min.map fun v => Term.cmp .ule (bvVal v 64) st.sigma.pktLen).toList ++
          (max.map fun v => Term.cmp .ule st.sigma.pktLen (bvVal v 64)).toList with
      | [] => throw .emptySequence
      | parts => pure (andTerms parts)
  | .scalar target value =>
      let field := match target with
        | .ingress => st.sigma.ingress
        | .rxIndex => st.sigma.rxIndex
        | .egress => st.sigma.egress
      pure (.cmp .eq field (bvVal value 64))
  | .helperScalar retval op value => do
      let v ← exprToZ3 st.reads st.block st.sigma retval
      pure (op.term v.term (bvVal value v.size))
  | .helperNull mapId mapKey mapKeyId result => do
      let c ← Condition.toZ3 st.reads st.block st.sigma
        (.containMapValue mapId mapKey mapKeyId result)
      pure c.toTerm
  | .ret op value => pure (op.term st.sigma.r0 (bvVal value 64))
  | .read parts op target => do
      let bytes ← parts.mapM fun p => do
        let t ← exprToZ3 st.reads st.block st.sigma p.1
        pure (⟨8, .extract (p.2 * 8) 8 t.term⟩ : ZBv)
      let v ← concatCells bytes
      pure (op.apply (.cmp .eq v.term (bvVal target v.size)))

mutual

def CondNode.toZ3 : CondNode → Except LowerError (ZTerm .bool)
  | .leaf atom => atom.toZ3 st
  | .not child => do
      let t ← child.toZ3
      pure (.not t)
  | .and children => do
      let ts ← CondNode.toZ3List children
      pure (andTerms ts)
  | .or children => do
      let ts ← CondNode.toZ3List children
      pure (orTermsAny ts)

def CondNode.toZ3List : List CondNode → Except LowerError (List (ZTerm .bool))
  | [] => pure []
  | c :: cs => do
      let t ← c.toZ3
      let ts ← CondNode.toZ3List cs
      pure (t :: ts)

end

end Atoms

inductive AssertMode where
  | «exists» | all
  deriving DecidableEq, Repr

structure BlockCondition where
  name : String
  block : Nat
  assertMode : AssertMode
  cond : CondNode

structure ExitCondition where
  name : String
  assertMode : AssertMode
  cond : CondNode

namespace ForwardContext

variable {maps : List MapInfo} (F : ForwardContext maps) (w : Walk maps)

/-- A byte of the memory at the end of a block. -/
def readLoc (atBlock : Nat) (loc : Loc) : Except LowerError (ZTerm (.bv 8)) :=
  let folded : Except LowerError (ZTerm (.bv 8)) := do
    match ← (F.mem w (exprToZ3 (F.hooked w) none F.initSt)).locByte F.fuel loc atBlock with
    | some t => pure t
    | none => throw .noEncoding
  let sigma := F.sigmaAt w (some atBlock)
  match loc.region with
  | .PKT =>
      if F.fold .pkt then folded
      else pure (.select sigma.pkt (bvVal loc.off PKT_ADDR_BITS))
  | .MAP =>
      if F.fold (.map loc.mapId) then folded
      else
        match loc.mapId, loc.mapKey with
        | some mapId, some mapKey => do
            let k ← exprToZ3 (F.hooked w) none F.initSt mapKey
            let val := Term.select (sigma.map mapId).value (resize k (keyBits maps mapId))
            if loc.off < 0 then throw (.negativeOffset loc.off)
            else
              let lo := loc.off.toNat * 8
              pure (if valBits maps mapId ≤ lo then bvVal 0 8 else .extract lo 8 val)
        | _, _ => throw .noMap
  | .BSS =>
      if F.fold (.bss loc.bssKey) then folded
      else pure (.select (bssOf sigma loc.bssKey) (bvVal loc.off BSS_ADDR_BITS))
  | .CTX => throw .noEncoding

/-- The state that a condition of a block is asked of. -/
def condState (block : Nat) : CondState maps where
  reads := F.hooked w
  block := some block
  sigma := F.stateAt w block
  readLoc := F.readLoc w block

/-- The state that a condition of an exit is asked of, if the exit has a return
value. -/
def exitState (block : Nat) : Except LowerError (Option (CondState maps)) := do
  match ← F.retState w block with
  | none => pure none
  | some r0 =>
      pure (some { F.condState w block with sigma := { F.stateAt w block with r0 := r0 } })

end ForwardContext

end Hornet
