import Hornet.Verify.Slice

/-!
The forward walk. It visits the blocks in topological order, merges the states
that the incoming edges bring, binds the reads of the block, applies its actions
and computes the guards of its edges. The hooks through which expressions are
lowered change as the walk goes on, so they are a function of its state.
-/

namespace Hornet

open Smt

/-- The parts of the state that the walk can leave out. -/
inductive StateRegion where
  | pkt | pktLen | rxIndex
  | map (mapId : Option Nat)
  | bss (key : Option String)
  deriving DecidableEq, Repr

def Action.writeRegion : Action → Option StateRegion
  | .pktWrite .. => some .pkt
  | .mapWrite mapId .. | .mapAtomicAdd mapId .. | .mapUpdate mapId .. | .mapDelete mapId .. =>
      some (.map mapId)
  | .bssWrite key .. | .bssAtomicAdd key .. => some (.bss key)
  | .ctxWrite _ => some .rxIndex
  | .adjustHead _ | .adjustTail _ => some .pktLen
  | _ => none

def Expr.leafRegion : Expr → Option StateRegion
  | .pktVal .. => some .pkt
  | .mapVal _ _ mapId .. => some (.map mapId)
  | .bssVal _ _ key .. => some (.bss key)
  | .funcRetval r => if r.redirects && r.mapId.isSome then some (.map r.mapId) else none
  | _ => none

/-- The instruction a source belongs to. -/
def Expr.sourceIdx : Expr → Int
  | .pktVal _ idx .. | .mapVal _ idx .. | .bssVal _ idx .. => idx
  | .funcRetval r => r.idx
  | _ => -1

structure ForwardInfo (maps : List MapInfo) where
  reach : Guard
  edgeTaken : Guard := .tt
  edgeFall : Guard := .tt
  sigma : Z3State maps
  imprecise : Bool := false

/-- When two terms are the same object. Objects that are the same are equal terms. -/
structure Identity where
  same : {s : Srt} → ZTerm s → ZTerm s → Bool
  sound : ∀ {s : Srt} (a b : ZTerm s), same a b = true → a = b

/-- The identity under which all equal terms are one object. -/
def Identity.equal : Identity := ⟨fun a b => decide (a = b), fun _ _ h => of_decide_eq_true h⟩

/-- What stays fixed during the walk. Reads are always resolved: the ablation without
`resolve_values`, in which `_bind_unresolved` names each read and the definitions are added to
the query, is left out. -/
structure ForwardContext (maps : List MapInfo) where
  blocks : List Block
  initSt : Z3State maps
  relevant : StateRegion → Bool
  fold : StateRegion → Bool
  anc : Nat → Option (List Nat)
  prunePaths : Bool
  simplifier : Simplifier
  identity : Identity
  fuel : Nat

/-- What the walk has found out so far, and the block it is at. -/
structure Walk (maps : List MapInfo) where
  info : Nat → Option (ForwardInfo maps) := fun _ => none
  memo : List (Expr × ZBv) := []
  lookupSigma : Int → Option (Z3State maps) := fun _ => none
  curBlock : Option Nat := none
  curReach : Guard := .ff
  curSigma : Z3State maps

section Merge

variable {maps : List MapInfo}

/-- Adds a contribution to the group of its term. -/
def insertContrib (I : Identity) {s : Srt} (g : Guard) (t : ZTerm s) :
    List (Guard × ZTerm s) → List (Guard × ZTerm s)
  | [] => [(g, t)]
  | (og, ot) :: rest =>
      if I.same ot t then (Guard.orAll [og, g], ot) :: rest
      else (og, ot) :: insertContrib I g t rest

/-- One component of the merged state: the term of the first group whose guard is
true, the last group being taken unguarded. -/
def mergeComponent (I : Identity) {s : Srt} (pairs : List (Guard × ZTerm s)) (dflt : ZTerm s) :
    ZTerm s :=
  match pairs.foldl (fun groups p => insertContrib I p.1 p.2 groups) [] with
  | [] => dflt
  | x :: xs => ifChain x xs

def mergeSigma (I : Identity) (initSt : Z3State maps) (contribs : List (Guard × Z3State maps)) :
    Z3State maps :=
  match contribs with
  | [] => initSt
  | [(_, sigma)] => sigma
  | contribs =>
      let merge {s : Srt} (f : Z3State maps → ZTerm s) : ZTerm s :=
        mergeComponent I (contribs.map fun c => (c.1, f c.2)) (f initSt)
      { initSt with
        pkt := merge (·.pkt)
        map := fun m => ⟨merge fun s => (s.map m).present, merge fun s => (s.map m).value⟩
        bss := fun k =>
          if contribs.any (fun c => (c.2.bss k).isSome) then some (merge fun s => bssOf s (some k))
          else none
        pktLen := merge (·.pktLen)
        rxIndex := merge (·.rxIndex) }

end Merge

/-- The reach condition of a block, which is false before it is visited. -/
def Walk.reachAt {maps : List MapInfo} (w : Walk maps) (block : Nat) : Guard :=
  if w.curBlock = some block then w.curReach
  else ((w.info block).map (·.reach)).getD .ff

namespace ForwardContext

variable {maps : List MapInfo} (F : ForwardContext maps)

/-- The block whose lookup made a key id. -/
def lookupBlock (keyId : Int) : Option Nat :=
  ((F.blocks.flatMap (·.actions)).filter fun e => match e.action with
    | .mapLookup _ _ id => id = some keyId
    | _ => false).getLast?.map (·.block)

variable (w : Walk maps)

def sigmaAt (atBlock : Option Nat) : Z3State maps :=
  if atBlock.isSome && atBlock = w.curBlock then w.curSigma
  else ((atBlock.bind w.info).map (·.sigma)).getD F.initSt

/-- The guard of an edge. -/
def edgeGuard (info : Nat → Option (ForwardInfo maps)) (e : Edge) : Guard :=
  match info e.1 with
  | none => .ff
  | some pi => pi.reach.and (match e.2 with
    | .taken => pi.edgeTaken
    | .fall => pi.edgeFall)

/-- The value a source was bound to when it was executed. -/
def memoGet (memo : List (Expr × ZBv)) (e : Expr) : Option ZBv :=
  (memo.find? fun x => Expr.same x.1 e).map (·.2)

/-- The memory that folded regions are read from. -/
def mem (lower : Expr → Except LowerError ZBv) : Memory maps where
  st := F.initSt
  blocks := F.blocks
  anc := F.anc
  reachOf := w.reachAt
  lower := lower

/-- The hooks, given how folded regions lower the values written to them. -/
def readsWith (lower : Expr → Except LowerError ZBv) : Reads maps where
  readPkt e := match e with
    | .pktVal block idx off varOff size =>
        if F.fold .pkt then
          if varOff.isSome then pure none
          else (F.mem w lower).read F.fuel ⟨.PKT, off, size, none, none, none⟩ block idx
        else pure (memoGet w.memo e)
    | _ => pure none
  readMap e := match e with
    | .mapVal block idx mapId mapKey _ off _ size =>
        if F.fold (.map mapId) then
          (F.mem w lower).read F.fuel ⟨.MAP, off, size, mapId, mapKey, none⟩ block idx
        else pure (memoGet w.memo e)
    | _ => pure none
  readBss e := match e with
    | .bssVal block idx key off varOff size =>
        if F.fold (.bss key) then
          if varOff.isSome then pure none
          else (F.mem w lower).read F.fuel ⟨.BSS, off, size, none, none, key⟩ block idx
        else pure (memoGet w.memo e)
    | _ => pure none
  readPresent mapId key atBlock atIdx :=
    let blk := atIdx.bind F.lookupBlock
    if F.fold (.map (some mapId)) then
      match blk with
      | some b => (F.mem w lower).presentFuel F.fuel mapId key (some b) atIdx
      | none => (F.mem w lower).presentFuel F.fuel mapId key atBlock none
    else
      let recorded := if blk.isSome then atIdx.bind w.lookupSigma else none
      let sigma := recorded.getD (F.sigmaAt w atBlock)
      pure (.select (sigma.map mapId).present key)
  guardOf := edgeGuard w.info
  base := F.initSt

/-- The hooks. The values that folded regions hold are lowered through them too. -/
def reads : Nat → Reads maps
  | 0 => F.readsWith w fun _ => throw .recursionLimit
  | fuel + 1 => F.readsWith w (exprToZ3 (some (reads fuel)) none F.initSt)

/-- The hooks at the current point of the walk. -/
def hooked : Option (Reads maps) := some (F.reads w F.fuel)

end ForwardContext

/-- What a block does, in order: binding a read or performing an action. -/
inductive Item where
  | src (e : Expr)
  | act (e : Event)

namespace Item

def idx : Item → Int
  | .src e => e.sourceIdx
  | .act e => e.idx

def rank : Item → Nat
  | .src _ => 0
  | .act _ => 1

/-- The order of items: by instruction, reads first. -/
def le (a b : Item) : Bool := a.idx < b.idx || (a.idx = b.idx && a.rank ≤ b.rank)

end Item

def isJoinValue : Expr → Bool
  | .joinValue .. => true
  | _ => false

/-- The items of a block in the order of execution. -/
def Block.items (b : Block) : List Item :=
  ((b.sources.filter (!isJoinValue ·)).map Item.src ++ b.actions.map Item.act).insertionSort
    fun x y => x.le y

/-- The walk after the state that a lookup finds was written down. -/
def Walk.record {maps : List MapInfo} (w : Walk maps) (e : Event) : Walk maps :=
  match e.action with
  | .mapLookup _ _ (some keyId) =>
      { w with lookupSigma := Function.update w.lookupSigma keyId (some w.curSigma) }
  | _ => w

namespace ForwardContext

variable {maps : List MapInfo} (F : ForwardContext maps)

/-- Whether the walk leaves an access to the region to the fold, or out. -/
def leaves (region : Option StateRegion) : Bool :=
  match region with
  | none => false
  | some r => !F.relevant r || F.fold r

/-- Executes an item of block `b` in the current state. -/
def walkItem (b : Nat) (w : Walk maps) : Item → Except LowerError (Walk maps)
  | .src e => do
      if (memoGet w.memo e).isSome || F.leaves e.leafRegion then pure w
      else
        let t ← exprToZ3 (F.hooked w) (some b) w.curSigma e
        pure { w with memo := (e, t) :: w.memo }
  | .act e => do
      let w := match e.action with
        | .mapLookup _ _ (some keyId) =>
            { w with lookupSigma := Function.update w.lookupSigma keyId (some w.curSigma) }
        | _ => w
      if F.leaves e.action.writeRegion then pure w
      else
        let sigma ← e.toZ3 (F.hooked w) (some b) w.curSigma
        pure { w with curSigma := sigma }

/-- What an action does in the walk. -/
theorem walkItem_act (b : Nat) (w : Walk maps) (e : Event) :
    F.walkItem b w (.act e) =
      if F.leaves e.action.writeRegion then pure (w.record e)
      else
        e.toZ3 (F.hooked (w.record e)) (some b) (w.record e).curSigma >>= fun sigma =>
          pure { w.record e with curSigma := sigma } := by
  rfl

/-- The guarded states that the visited predecessors bring to block `b`. -/
def contribs (w : Walk maps) (b : Nat) : List (Guard × Z3State maps) :=
  ((predsOf F.blocks b).dedup.insertionSort (· ≤ ·)).flatMap fun p =>
    match F.blocks[p]?, w.info p with
    | some pb, some pi =>
        if pi.reach = .ff then []
        else
          let taken := if pb.succT = some b then [pi.reach.and pi.edgeTaken] else []
          let fall := if pb.succF = some b then [pi.reach.and pi.edgeFall] else []
          ((taken ++ fall).filter (· ≠ .ff)).map fun g => (g, pi.sigma)
    | _, _ => []

/-- The walk at the start of block `b`. -/
def enterBlock (w : Walk maps) (b : Nat) : Walk maps :=
  let (reach, sigma) :=
    if b = 0 then (Guard.tt, F.initSt)
    else
      let cs := F.contribs w b
      (Guard.orAll (cs.map (·.1)), mergeSigma F.identity F.initSt cs)
  { w with curBlock := some b, curReach := reach, curSigma := sigma }

/-- The guards of the edges out of a block. -/
def edges (w : Walk maps) (block : Block) : Except LowerError (Guard × Guard × Bool) :=
  if block.branch then
    if F.prunePaths then branchGuards (F.hooked w) block w.curSigma F.simplifier
    else branchGuardsUnpruned (F.hooked w) block w.curSigma
  else pure (.tt, .tt, false)

/-- Visits block `b`. -/
def walkBlock (w : Walk maps) (b : Nat) : Except LowerError (Walk maps) := do
  match F.blocks[b]? with
  | none => pure w
  | some block =>
      let w ← block.items.foldlM (F.walkItem b) (F.enterBlock w b)
      let (taken, fall, imprecise) ← F.edges w block
      pure { w with info := Function.update w.info b (some
        { reach := w.curReach, edgeTaken := taken, edgeFall := fall, sigma := w.curSigma,
          imprecise := imprecise }) }

/-- The walk over all blocks of the order. -/
def walk (order : List Nat) : Except LowerError (Walk maps) := do
  let w ← order.foldlM F.walkBlock { curSigma := F.initSt }
  pure { w with curBlock := none, curReach := .ff, curSigma := F.initSt }

/-- The state at the end of a block. -/
def stateAt (w : Walk maps) (block : Nat) : Z3State maps :=
  ((w.info block).map (·.sigma)).getD F.initSt

/-- The return value of an exit block. -/
def retState (w : Walk maps) (block : Nat) : Except LowerError (Option (ZTerm (.bv 64))) :=
  match (F.blocks[block]?).bind Block.retExpr with
  | none => pure none
  | some ret => do
      let r ← exprToZ3 (F.hooked w) (some block) (F.stateAt w block) ret
      pure (some (resize r 64))

end ForwardContext

end Hornet
