import Hornet.Track.Record

/-!
The tracker's state of one basic block and the join of its predecessors.
`mergeEntry` joins the values that the incoming edges bring for one register or
stack slot; `mergePredecessors` does so for every slot. The stack is a list of
eight-byte slots below the frame pointer.
-/

namespace Hornet

def NO_FACT_ID : Int := -2

/-- The id under which facts about the nullity of a pointer are kept. -/
def nullFactId (p : PTR Expr) : Option Int :=
  if p.id ≠ -1 then some p.id else p.baseId

def isNullConst : Expr → Bool
  | .num n _ _ => n = 0
  | _ => false

def foldNullity : List (Option Bool) → Option Bool
  | [] => none
  | v :: vs => if vs.all (· = v) then v else none

structure Block where
  num : Nat
  start : Nat
  «end» : Nat
  preds : List Nat := []
  succF : Option Nat := none
  succT : Option Nat := none
  exit : Bool := false
  jump : Bool := false
  branch : Bool := false
  progEntry : Option ProgRegion := none
  tailCtx : Option Obj := none
  regs : Reg → Option Obj := fun _ => none
  stk : List (Option Obj) := []
  actions : List Event := []
  sources : List Expr := []
  cond : Option Condition := none
  condF : Option EdgeFact := none
  condT : Option EdgeFact := none
  ptrFacts : Option Int → Option PtrFacts := fun _ => none
  pktPtrFacts : Option Int → Option PktFacts := fun _ => none
  idBox : Int := 0
  pktBaseId : Option Int := some (-1)
  adjustPending : Option (Nat × Option Int) := none
  idx : Nat := 0

inductive BlockKind where
  | branch | jump | exit | fall
  deriving DecidableEq, Repr

namespace Block

def kind (b : Block) : BlockKind :=
  if b.branch then .branch else if b.jump then .jump else if b.exit then .exit else .fall

def retExpr (b : Block) : Option Expr :=
  if b.exit then (b.regs 0).map (·.val) else none

def emit (b : Block) (a : Action) : Block :=
  { b with actions := b.actions ++ [⟨b.num, b.idx, a⟩] }

def addSource (b : Block) (e : Expr) : Block :=
  { b with sources := b.sources ++ [e] }

def newPtrId (b : Block) : Int × Block :=
  (b.idBox + 1, { b with idBox := b.idBox + 1 })

def setReg (b : Block) (r : Reg) (v : Option Obj) : Block :=
  { b with regs := Function.update b.regs r v }

/-- The register value without its object identity. -/
def reg (b : Block) (r : Reg) : Option Expr := (b.regs r).map (·.val)

def setPktFacts (b : Block) (f : PktFacts) : Block :=
  { b with pktPtrFacts := Function.update b.pktPtrFacts f.id (some f) }

def setPtrFacts (b : Block) (f : PtrFacts) : Block :=
  { b with ptrFacts := Function.update b.ptrFacts f.baseId (some f) }

end Block

/-- `o` with its nullity set; the object itself when that changes nothing. -/
def withNullity (o : Obj) (p : PTR Expr) (nullity : Option Bool) (copy : Origin) : Obj :=
  if p.checkedNull = nullity then o else ⟨copy, .ptr { p with checkedNull := nullity }⟩

/-- `o` with its packet view set when it is a context pointer with another. -/
def withView (o : Obj) (baseId : Option Int) (copy : Origin) : Obj :=
  match o.val with
  | .ptr p =>
      if p.ptrType ≠ .CTX || p.baseId = baseId then o
      else ⟨copy, .ptr { p with baseId := baseId }⟩
  | _ => o

def Block.setCtxView (b : Block) (baseId : Option Int) : Block :=
  { b with
    regs := fun r => (b.regs r).map fun o => withView o baseId (.view b.idx r.val)
    stk := b.stk.zipIdx.map fun c =>
      c.1.map fun o => withView o baseId (.view b.idx (-8 * (c.2 + 1)))
    pktBaseId := baseId }

/-- A value that is zero exactly when `v` is null, if one is known. -/
def nullityValue : Expr → Option Expr
  | .num n _ _ => if n = 0 then some (.num 0 1 (-1)) else none
  | .ptr p =>
      match p.checkedNull with
      | some false => some (.num 1 1 (-1))
      | some true => some (.num 0 1 (-1))
      | none =>
          match p.nullPhi with
          | some phi => some phi
          | none =>
              if p.ptrType = .MAP_VALUE && p.mapKey.isSome && p.mapKeyId.isSome &&
                  p.mapKeyId = p.baseId then
                some (.lookupHit p.mapId p.mapKey p.mapKeyId)
              else none
  | _ => none

section Groups

variable {α : Type}

/-- Adds an edge to the first group whose representative equals `a`, or opens a
new group. -/
def insertGroup (eq : α → α → Bool) (e : Edge) (a : α) :
    List (α × List Edge) → List (α × List Edge)
  | [] => [(a, [e])]
  | (b, es) :: gs =>
      if eq b a then (b, es ++ [e]) :: gs else (b, es) :: insertGroup eq e a gs

/-- The distinct values with the edges that bring each, in order of first
occurrence. -/
def groupEdges (eq : α → α → Bool) (entries : List (Edge × α)) : List (α × List Edge) :=
  entries.foldl (fun gs x => insertGroup eq x.1 x.2 gs) []

end Groups

/-- A join of the grouped values. -/
def joinOf (blockIdx : Nat) (regNum : Int) (groups : List (Option Expr × List Edge)) : Expr :=
  .joinValue blockIdx regNum (groups.map (·.1)) (groups.map (·.2))

/-- Groups whose values are the representatives themselves. -/
def valueGroups (groups : List (Expr × List Edge)) : List (Option Expr × List Edge) :=
  groups.map fun g => (some g.1, g.2)

namespace Block

/-- The value that follows the nullity of a joined pointer: none unless every
entry has one, and a new join of them unless they agree. -/
def nullPhiOf (self : Block) (predEdges : List Edge) (entries : List Obj) (regNum : Int) :
    Option Expr × Block :=
  match entries.mapM (fun v => nullityValue v.val) with
  | some (v :: vs) =>
      if vs.all (fun u => Expr.same u v) then
        (match v with | .joinValue .. => some v | _ => none, self)
      else
        let j := joinOf self.num regNum
          (valueGroups (groupEdges Expr.same (predEdges.zip (v :: vs))))
        (some j, self.addSource j)
  | _ => (none, self)

/-- Gives an undecided joined pointer its null phi. A pointer that had none and
gets none stays the same object. -/
def stampNullPhi (self : Block) (o : Obj) (predEdges : List Edge) (entries : List Obj)
    (regNum : Int) : Obj × Block :=
  match o.val with
  | .ptr p =>
      if p.checkedNull.isSome then (o, self)
      else
        let (phi, self) := self.nullPhiOf predEdges entries regNum
        if phi.isNone && p.nullPhi.isNone then (o, self)
        else (⟨.merge self.num regNum, .ptr { p with nullPhi := phi }⟩, self)
  | _ => (o, self)

/-- What the edge's own condition, or else the block's facts, say about the
nullity of a pointer. -/
def knownNull (self : Block) (c : Option EdgeFact) (p : PTR Expr) : Option Bool :=
  match c with
  | some (.ptr g) =>
      if g.baseId = nullFactId p then some g.null
      else (self.ptrFacts (nullFactId p)).bind (·.checkedNull)
  | _ => (self.ptrFacts (nullFactId p)).bind (·.checkedNull)

/-- One incoming value seen through the packet view of its edge. -/
def viewEntry (self : Block) (regNum : Int) (depth k : Nat) (c : Option EdgeFact)
    (v : Option Obj) : Option Obj :=
  match c with
  | some (.adjust f) => v.map (withView · f.baseId (.entry self.num regNum depth k))
  | _ => v

/-- One incoming value with the facts of its edge applied. -/
def resolveEntry (self : Block) (regNum : Int) (depth k : Nat) (c : Option EdgeFact)
    (v : Option Obj) : Option Obj :=
  match self.viewEntry regNum depth k c v with
  | some ⟨org, .ptr p⟩ =>
      if p.checkedNull.isSome then some ⟨org, .ptr p⟩
      else
        match self.knownNull c p with
        | some false => some (withNullity ⟨org, .ptr p⟩ p (some false) (.entry self.num regNum depth k))
        | some true => some ⟨.entry self.num regNum depth k, .num 0 8 (-1)⟩
        | none => some ⟨org, .ptr p⟩
  | v => v

def resolveEntries (self : Block) (regNum : Int) (depth : Nat)
    (conds : List (Option EdgeFact)) (entries : List (Option Obj)) : List (Option Obj) :=
  entries.zipIdx.map fun (v, k) => self.resolveEntry regNum depth k (conds.getD k none) v

/-- The join of packet pointers with one base: the offset becomes a join value. -/
def mergePkt (self : Block) (predEdges : List Edge) (first : Obj) (p : PTR Expr)
    (entries : List Obj) (ptrs : List (PTR Expr)) (nullity : Option Bool) (regNum : Int) :
    Option Obj × Block :=
  if ptrs.any (·.baseId ≠ p.baseId) then (none, self)
  else if entries.tail.any (·.org ≠ first.org) then
    let groups := groupEdges (fun a b => Expr.same (.ptr a) (.ptr b)) (predEdges.zip ptrs)
    let varOff := joinOf self.num regNum
      (groups.map fun g => (some g.1.totalOffset, g.2))
    let (newId, self) := (self.addSource varOff).newPtrId
    let newPtr : PTR Expr :=
      { ptrType := .PKT, off := 0, varOff := some varOff, id := newId, baseId := p.baseId,
        checkedNull := nullity }
    let self := self.setPktFacts { id := some newId, baseId := p.baseId }
    let (o, self) := self.stampNullPhi ⟨.merge self.num regNum, .ptr newPtr⟩ predEdges entries regNum
    (some o, self)
  else
    let (o, self) := self.stampNullPhi (withNullity first p nullity (.merge self.num regNum))
      predEdges entries regNum
    (some o, self)

/-- The join of map-value pointers into one map at one constant offset. The
variable offset of the first entry is kept for all of them. -/
def mergeMapValue (self : Block) (predEdges : List Edge) (first : Obj) (p : PTR Expr)
    (entries : List Obj) (ptrs : List (PTR Expr)) (nullity : Option Bool) (regNum : Int) :
    Option Obj × Block :=
  if ptrs.any (fun r => r.mapId ≠ p.mapId || r.off ≠ p.off) then (none, self)
  else if ptrs.all (·.mapKeyId = p.mapKeyId) then
    let (o, self) := self.stampNullPhi (withNullity first p nullity (.merge self.num regNum))
      predEdges entries regNum
    (some o, self)
  else
    let groups := groupEdges (fun a b => decide (PTR.mapKeyId a = PTR.mapKeyId b))
      (predEdges.zip ptrs)
    let mapKey := joinOf self.num regNum
      (groups.map fun g => (g.1.mapKey, g.2))
    let (newId, self) := self.newPtrId
    let newPtr : PTR Expr :=
      { p with mapKey := some mapKey, mapKeyId := some newId, checkedNull := nullity }
    let (o, self) := (self.addSource mapKey).stampNullPhi
      ⟨.merge self.num regNum, .ptr newPtr⟩ predEdges entries regNum
    (some o, self)

/-- The join of pointers into any other region. -/
def mergeOther (self : Block) (predEdges : List Edge) (first : Obj) (p : PTR Expr)
    (entries : List Obj) (ptrs : List (PTR Expr)) (nullity : Option Bool) (regNum : Int) :
    Option Obj × Block :=
  if ptrs.any (fun r => !Expr.same (.ptr r) (.ptr p)) then (none, self)
  else
    let out := withNullity first p nullity (.merge self.num regNum)
    let out :=
      if p.ptrType = .CTX && ptrs.any (·.baseId ≠ p.baseId) then
        withView out none (.merge self.num regNum)
      else out
    let (o, self) := self.stampNullPhi out predEdges entries regNum
    (some o, self)

/-- The join of scalars. -/
def mergeScalar (self : Block) (predEdges : List Edge) (first : Obj) (entries : List Obj)
    (regNum : Int) : Option Obj × Block :=
  match first.val.num? with
  | some n =>
      if entries.all (·.val.num? = some n) then (some first, self)
      else joinScalars
  | none => joinScalars
where
  joinScalars : Option Obj × Block :=
    if entries.any (·.org ≠ first.org) then
      let phi := joinOf self.num regNum
        (valueGroups (groupEdges Expr.same (predEdges.zip (entries.map (·.val)))))
      (some ⟨.merge self.num regNum, phi⟩, self.addSource phi)
    else (some first, self)

/-- The join of values that are all pointers or all scalars. -/
def mergeUniform (self : Block) (predEdges : List Edge) (entries : List Obj) (regNum : Int) :
    Option Obj × Block :=
  match entries with
  | [] => (none, self)
  | first :: _ =>
      match first.val with
      | .ptr p =>
          match entries.mapM (·.val.ptr?) with
          | none => (none, self)
          | some ptrs =>
              if ptrs.any (·.ptrType ≠ p.ptrType) then (none, self)
              else
                let nullity := foldNullity (ptrs.map (·.checkedNull))
                match p.ptrType with
                | .PKT => self.mergePkt predEdges first p entries ptrs nullity regNum
                | .MAP_VALUE => self.mergeMapValue predEdges first p entries ptrs nullity regNum
                | _ => self.mergeOther predEdges first p entries ptrs nullity regNum
      | _ =>
          if entries.any (·.val.isPTR) then (none, self)
          else self.mergeScalar predEdges first entries regNum

/-- A joined pointer that may also be null. One whose nullity was decided gets an
id of its own, under which no facts are known yet. -/
def undecide (self : Block) (org : Origin) (p : PTR Expr) (regNum : Int) : Obj × Block :=
  if p.checkedNull.isSome then
    let (newId, self) := self.newPtrId
    let self :=
      if p.ptrType = .PKT then self.setPktFacts { id := some newId, baseId := p.baseId } else self
    (⟨.merge self.num regNum, .ptr { p with checkedNull := none, id := newId }⟩, self)
  else (⟨org, .ptr p⟩, self)

/-- The join of null constants with the join `merged` of the other entries. -/
def mergeNulls (self : Block) (predEdges : List Edge) (entries : List Obj) (regNum : Int)
    (merged : Option Obj) : Option Obj × Block :=
  match merged with
  | some ⟨org, .ptr p⟩ =>
      let (out, self) := self.undecide org p regNum
      let (o, self) := self.stampNullPhi out predEdges entries regNum
      (some o, self)
  | _ => (none, self)

/-- The join of any values. Pointers that meet null constants are joined on their
own first. `fuel` bounds the recursion, which is on fewer entries each time. -/
def mergeEntryFuel : Nat → Block → List Edge → List (Option Obj) → Int →
    List (Option EdgeFact) → Option Obj × Block
  | 0, self, _, _, _, _ => (none, self)
  | fuel + 1, self, predEdges, entries, regNum, predConds =>
      match (self.resolveEntries regNum fuel predConds entries).mapM id with
      | none => (none, self)
      | some entries =>
          let isPtr := entries.map (·.val.isPTR)
          if isPtr.any id && !isPtr.all id then
            if entries.any (fun o => !o.val.isPTR && !isNullConst o.val) then (none, self)
            else
              let ptrAt := (predEdges.zip entries).filter (·.2.val.isPTR)
              let (merged, self) := mergeEntryFuel fuel self (ptrAt.map (·.1))
                (ptrAt.map fun x => some x.2) regNum []
              self.mergeNulls predEdges entries regNum merged
          else self.mergeUniform predEdges entries regNum

def mergeEntry (self : Block) (predEdges : List Edge) (entries : List (Option Obj))
    (regNum : Int) (predConds : List (Option EdgeFact)) : Option Obj × Block :=
  mergeEntryFuel (entries.length + 1) self predEdges entries regNum predConds

/-- The edges into the block as the join names them: the kind is derived from
the fall-through successor of each predecessor. -/
def predEdges (self : Block) (blocks : List Block) : List (Edge × Block) :=
  self.preds.filterMap fun p => (blocks[p]?).map fun pb =>
    ((p, if pb.succF = some self.num then .fall else .taken), pb)

/-- What the edge states: the fact of the branch side it belongs to. -/
def edgeFact (pb : Block) : EdgeKind → Option EdgeFact
  | .fall => pb.condF
  | .taken => pb.condT

/-- Adds the null facts of one predecessor. -/
def mergePtrFacts (self pb : Block) (c : Option EdgeFact) : Block :=
  { self with ptrFacts := fun id =>
      match pb.ptrFacts id with
      | none => self.ptrFacts id
      | some fact =>
          let fact := match c with
            | some (.ptr g) => if g.baseId = id then ⟨g.baseId, some g.null⟩ else fact
            | _ => fact
          match self.ptrFacts id with
          | none => some fact
          | some present =>
              if present.checkedNull ≠ fact.checkedNull then
                some { baseId := fact.baseId, checkedNull := none }
              else some present }

/-- The weaker of two bounds, when both are known. -/
def mergeBound (f : Int → Int → Int) : Option Int → Option Int → Option Int
  | some a, some b => some (f a b)
  | _, _ => none

/-- Adds the packet facts of one predecessor; a predecessor that sees the packet
through another view discards them all. -/
def mergePktFacts (self pb : Block) (c : Option EdgeFact) (isFirst : Bool) : Block :=
  let pktBaseId := match c with
    | some (.adjust f) => f.baseId
    | _ => pb.pktBaseId
  if isFirst then { self with pktBaseId := pktBaseId, pktPtrFacts := pb.pktPtrFacts }
  else if self.pktBaseId ≠ pktBaseId then
    { self with pktBaseId := none, pktPtrFacts := fun _ => none }
  else
    { self with pktPtrFacts := fun id =>
        match pb.pktPtrFacts id with
        | none => self.pktPtrFacts id
        | some fact =>
            let fact := match c with
              | some (.pkt g) =>
                  if g.baseId = self.pktBaseId && g.id = id then g else fact
              | _ => fact
            match self.pktPtrFacts id with
            | none => some fact
            | some present =>
                some { fact with
                  minLen := mergeBound min fact.minLen present.minLen
                  maxLen := mergeBound max fact.maxLen present.maxLen } }

/-- Adds all facts of the predecessors, in the order of the edges. -/
def mergeFacts (self : Block) (preds : List (Edge × Block)) : Block :=
  preds.zipIdx.foldl (fun self x =>
    let c := edgeFact x.1.2 x.1.1.2
    (self.mergePtrFacts x.1.2 c).mergePktFacts x.1.2 c (x.2 = 0)) self

/-- The registers `r0` to `r9`, joined one after the other. -/
def mergeRegs (self : Block) (preds : List (Edge × Block)) : Block :=
  let conds := preds.map fun x => edgeFact x.2 x.1.2
  ([0, 1, 2, 3, 4, 5, 6, 7, 8, 9] : List Reg).foldl (fun self r =>
    let (v, self) := self.mergeEntry (preds.map (·.1)) (preds.map (·.2.regs r)) r.val conds
    self.setReg r v) self

/-- The slots that every predecessor has, joined one after the other. -/
def mergeStk (self : Block) (preds : List (Edge × Block)) : Block :=
  let conds := preds.map fun x => edgeFact x.2 x.1.2
  let size := (preds.map (·.2.stk.length)).min?.getD 0
  (List.range size).foldl (fun (self : Block) (i : Nat) =>
    let (v, self) := self.mergeEntry (preds.map (·.1))
      (preds.map fun x => (x.2.stk[i]?).join) (-8 * ((i : Int) + 1)) conds
    { self with stk := self.stk ++ [v] }) { self with stk := [] }

def mergePredecessors (self : Block) (blocks : List Block) : Except TrackError Block :=
  let preds := self.predEdges blocks
  match preds with
  | [] => throw (.noPredecessors self.num)
  | first :: _ =>
      -- a fact under the key `None` is compared with the id of an absent fact
      if preds.any (fun x => (x.2.ptrFacts none).isSome &&
          match edgeFact x.2 x.1.2 with | some (.ptr _) => false | _ => true) then
        throw (.factWithoutId self.num)
      else
        pure ((({ self.mergeFacts preds with regs := first.2.regs }).mergeRegs preds).mergeStk preds)

/-- The entry state of the program. -/
def initState (self : Block) : Block :=
  { self with
    regs := Function.update (Function.update self.regs 1
        (some ⟨.init 1, .ptr { ptrType := .CTX, id := -1 }⟩)) 10
        (some ⟨.init 10, .ptr { ptrType := .STK, id := NO_FACT_ID }⟩)
    ptrFacts := Function.update (Function.update (fun _ => none)
        (some NO_FACT_ID) (some ⟨some NO_FACT_ID, some false⟩))
        (some (-1)) (some ⟨some (-1), some false⟩)
    pktPtrFacts := Function.update (fun _ => none) (some (-1)) (some { id := some (-1), baseId := some (-1) })
    pktBaseId := some (-1)
    stk := [] }

/-- A bound on which all tail-call sites agree. -/
def agreeing (bounds : List (Option Int)) : Option Int :=
  match bounds with
  | [] => none
  | b :: bs => if bs.all (· = b) then b else none

/-- The entry state of a tail-called program. -/
def initTailEntry (self : Block) (blocks : List Block) : Except TrackError Block :=
  let sites := (self.preds.filterMap (blocks[·]?)).filter (·.succT = some self.num)
  let ctxs := sites.filterMap fun b => b.tailCtx.bind fun o => o.val.ptr?.map fun p => (o, p)
  if ctxs.any (fun x => ctxs.any fun y => x.2.baseId ≠ y.2.baseId) then
    throw (.tailViews self.num)
  else
    let ctx : Obj := match ctxs with
      | x :: _ => x.1
      | [] => ⟨.init 1, .ptr { ptrType := .CTX, id := -1 }⟩
    let base : Option Int := match ctxs with
      | x :: _ => x.2.baseId
      | [] => some (-1)
    let facts := sites.map (·.pktPtrFacts base)
    pure { self with
      regs := Function.update (Function.update (fun _ => none) 1 (some ctx)) 10
        (some ⟨.init 10, .ptr { ptrType := .STK, id := NO_FACT_ID }⟩)
      stk := []
      ptrFacts := Function.update (Function.update (fun _ => none)
        (some NO_FACT_ID) (some ⟨some NO_FACT_ID, some false⟩))
        base (some ⟨base, some false⟩)
      pktPtrFacts := Function.update (fun _ => none) base (some {
        id := base, baseId := base
        minLen := agreeing (facts.map (·.bind (·.minLen)))
        maxLen := agreeing (facts.map (·.bind (·.maxLen))) })
      pktBaseId := base }

/-- Python indexing: a negative index counts from the end. -/
def stkIndex (self : Block) (slotIdx : Int) : Option Nat :=
  if 0 ≤ slotIdx then
    if slotIdx.toNat < self.stk.length then some slotIdx.toNat else none
  else if 0 ≤ (self.stk.length : Int) + slotIdx then
    some ((self.stk.length : Int) + slotIdx).toNat
  else none

/-- Stores `size` bytes at `addr` into the slot that holds its first byte. -/
def stkStore (self : Block) (addr : Int) (size : Nat) (value : Option Obj) :
    Except TrackError Block :=
  let slotIdx := -(addr / 8) - 1
  let slotOff := (addr % 8).toNat
  let stk := self.stk ++ List.replicate (slotIdx + 1 - self.stk.length).toNat none
  let self := { self with stk := stk }
  let masked : Option Expr :=
    if size < 8 then
      some (.binary .AND (value.map (·.val)) (some (.num (2 ^ (8 * size) - 1) 8 (-1))) 0 .b8 self.idx)
    else value.map (·.val)
  let newValue : Option Expr :=
    if slotOff ≠ 0 then
      some (.binary .LSH masked (some (.num (8 * slotOff) 8 (-1))) 0 .b8 self.idx)
    else masked
  let new : Option Obj :=
    if size < 8 || slotOff ≠ 0 then newValue.map fun e => ⟨.instr self.idx 1, e⟩ else value
  match self.stkIndex slotIdx with
  | none => throw (.stackIndex addr)
  | some i =>
      match (stk[i]?).join with
      | some old =>
          if slotOff = 0 && size ≥ 8 then pure { self with stk := stk.set i new }
          else
            let keep := Int.xor (2 ^ 64 - 1) ((2 ^ (8 * size) - 1) * 2 ^ (8 * slotOff))
            pure { self with stk := stk.set i (some ⟨.instr self.idx 1,
              .binary .OR (some (.binary .AND (some old.val) (some (.num keep 8 (-1))) 0 .b8 self.idx))
                newValue 0 .b8 self.idx⟩) }
      | none => pure { self with stk := stk.set i new }

/-- Loads `size` bytes at `addr`. -/
def stkLoad (self : Block) (addr : Int) (size : Nat) : Except TrackError Obj :=
  let slotIdx := -(addr / 8) - 1
  let slotOff := (addr % 8).toNat
  if slotOff + size > 8 then
    let chunks := (List.range ((slotOff + size + 7) / 8)).map fun (i : Nat) =>
      if 0 ≤ slotIdx - i then ((self.stk[(slotIdx - i).toNat]?).join).map (·.val) else none
    pure ⟨.instr self.idx 0, .byteSeq chunks size slotOff⟩
  else
    match self.stkIndex slotIdx with
    | none => throw (.stackIndex addr)
    | some i =>
        let slot := (self.stk[i]?).join
        if slotOff ≠ 0 then
          pure ⟨.instr self.idx 0, .byteSeq [slot.map (·.val)] size slotOff⟩
        else
          match slot with
          | none => throw (.emptySlot addr)
          | some o =>
              if o.val.isPTR || o.val.size ≤ size then pure o
              else pure ⟨.instr self.idx 0,
                .binary .AND (some o.val) (some (.num (2 ^ (8 * size) - 1) size (-1))) 0 .b8 self.idx⟩

end Block

end Hornet
