import Hornet.Verify.Prune

/-!
Reads resolved from the list of all writes. `Memory` looks a byte up in the
writes that can run before the read; each of them becomes one arm of a chain of
conditionals, guarded by the reach condition of its block.
-/

namespace Hornet

open Smt

/-- The region a write goes to. -/
inductive WriteRegion where
  | PKT | MAP | CTX | BSS
  deriving DecidableEq, Repr

namespace Action

def region : Action → Option WriteRegion
  | .pktWrite .. => some .PKT
  | .mapWrite .. | .mapAtomicAdd .. | .mapUpdate .. => some .MAP
  | .bssWrite .. | .bssAtomicAdd .. => some .BSS
  | .ctxWrite .. => some .CTX
  | _ => none

def off : Action → Int
  | .pktWrite _ off _ _ _ | .mapWrite _ _ off _ _ _ | .mapAtomicAdd _ _ off _ _ _ _
  | .bssWrite _ off _ _ _ | .bssAtomicAdd _ off _ _ _ _ => off
  | .ctxWrite _ => 16
  | _ => 0

def size : Action → Nat
  | .pktWrite _ _ _ size _ | .mapWrite _ _ _ size _ _ | .mapAtomicAdd _ _ _ size _ _ _
  | .mapUpdate _ _ _ _ size | .bssWrite _ _ size _ _ | .bssAtomicAdd _ _ size _ _ _ => size
  | .ctxWrite _ => 4
  | _ => 0

def varOff : Action → Option Expr
  | .pktWrite _ _ varOff _ _ | .mapWrite _ _ _ _ _ varOff | .mapAtomicAdd _ _ _ _ _ varOff _
  | .bssWrite _ _ _ _ varOff | .bssAtomicAdd _ _ _ _ varOff _ => varOff
  | _ => none

def mapId : Action → Option Nat
  | .mapWrite mapId .. | .mapAtomicAdd mapId .. | .mapUpdate mapId .. | .mapDelete mapId ..
  | .mapLookup mapId .. => mapId
  | _ => none

def mapKey : Action → Option Expr
  | .mapWrite _ mapKey .. | .mapAtomicAdd _ mapKey .. | .mapUpdate _ mapKey ..
  | .mapDelete _ mapKey | .mapLookup _ mapKey _ => mapKey
  | _ => none

def value : Action → Option Expr
  | .pktWrite _ _ _ _ value | .mapWrite _ _ _ _ value _ | .mapAtomicAdd _ _ _ _ value _ _
  | .mapUpdate _ _ value _ _ | .bssWrite _ _ _ value _ | .bssAtomicAdd _ _ _ value _ _
  | .ctxWrite value => value
  | _ => none

/-- The value an atomic addition adds to. -/
def old : Action → Option Expr
  | .mapAtomicAdd _ _ _ _ _ _ old | .bssAtomicAdd _ _ _ _ _ old => old
  | _ => none

/-- The presence a write gives its key. -/
def presence : Action → Option Bool
  | .mapUpdate .. => some true
  | .mapDelete .. => some false
  | _ => none

end Action

/-- A byte that is read. -/
structure Loc where
  region : WriteRegion
  off : Int
  size : Nat
  mapId : Option Nat
  mapKey : Option Expr
  bssKey : Option String

/-- Whether a write can touch the location, as far as constants tell. -/
def mayAlias (loc : Loc) (w : Action) : Bool :=
  if w.region ≠ some loc.region then false
  else if loc.region = .MAP && loc.mapId ≠ w.mapId then false
  else if loc.region = .MAP && (match loc.mapKey.bind Expr.num?, w.mapKey.bind Expr.num? with
      | some a, some b => decide (a ≠ b)
      | _, _ => false) then false
  else if loc.region = .BSS && (match loc.bssKey, w.bssKey with
      | some a, some b => decide (a ≠ b)
      | _, _ => false) then false
  else if w.varOff.isSome then true
  else loc.off < w.off + max w.size 1 && w.off < loc.off + max loc.size 1

/-- What the resolution of reads depends on: the state at the entry, the blocks
with their ancestors and reach conditions, and the lowering of values. -/
structure Memory (maps : List MapInfo) where
  st : Z3State maps
  blocks : List Block
  anc : Nat → Option (List Nat)
  reachOf : Nat → Guard
  lower : Expr → Except LowerError ZBv

namespace Memory

variable {maps : List MapInfo} (M : Memory maps)

/-- All writes, block by block in the order of the block numbers. -/
def writes : List Event := (M.blocks.flatMap (·.actions)).filter (·.action.region.isSome)

def presenceWrites : List Event :=
  (M.blocks.flatMap (·.actions)).filter (·.action.presence.isSome)

def lowerSome (e : Option Expr) : Except LowerError ZBv :=
  match e with
  | some e => M.lower e
  | none => throw .noEncoding

def key (mapId : Nat) (e : Option Expr) : Except LowerError (ZTerm (.bv (keyBits maps mapId))) := do
  let k ← M.lowerSome e
  pure (resize k (keyBits maps mapId))

def ancestorOrSelf (block atBlock : Nat) : Bool :=
  block = atBlock || ((M.anc atBlock).getD []).contains block

def ranBefore (w : Event) (atBlock : Nat) : Bool :=
  M.ancestorOrSelf w.block atBlock && M.reachOf w.block ≠ .ff

def visible (w : Event) (atBlock : Nat) (atIdx : Int) : Bool :=
  M.ranBefore w atBlock && !(w.block = atBlock && atIdx ≤ w.idx)

/-- Whether an update takes effect, given how presence is looked up. -/
def appliesWith (present : (mapId : Nat) → ZTerm (.bv (keyBits maps mapId)) → Option Nat →
    Option Int → Except LowerError (ZTerm .bool)) (w : Event) : Except LowerError Guard :=
  match w.action with
  | .mapUpdate (some mapId) mapKey _ flags _ =>
      if flags.map (· % 4) = some 0 then pure .tt
      else do
        let k ← M.key mapId mapKey
        let p ←
          if isArrayMap maps mapId then
            pure (.cmp .ult k (bvVal (maxEntries maps mapId) (keyBits maps mapId)))
          else present mapId k (some w.block) (some w.idx)
        pure (updateApplies flags w.idx p)
  | _ => pure .tt

/-- Whether a key is present at a point. An update refers to the presence before
it, hence the fuel. -/
def presentFuel : Nat → (mapId : Nat) → ZTerm (.bv (keyBits maps mapId)) → Option Nat →
    Option Int → Except LowerError (ZTerm .bool)
  | 0, _, _, _, _ => throw .recursionLimit
  | fuel + 1, mapId, keyZ3, atBlock, atIdx =>
      let initial : ZTerm .bool := .select (M.st.map mapId).present keyZ3
      match atBlock with
      | none => pure initial
      | some atBlock =>
          M.presenceWrites.foldlM (fun p w => do
            let shown := match atIdx with
              | none => M.ranBefore w atBlock
              | some i => M.visible w atBlock i
            if w.action.mapId ≠ some mapId || !shown then pure p
            else
              let g := M.reachOf w.block
              let g ← match w.action.mapKey with
                | none => pure g
                | some k => do
                    let k ← M.key mapId (some k)
                    pure (g.and (.term (.cmp .eq k keyZ3)))
              let applies ← if g = .ff then pure .tt else M.appliesWith (presentFuel fuel) w
              pure ((g.and applies).ite (.boolVal (w.action.presence = some true)) p)) initial

/-- The byte a write leaves at an offset, if it is one of its bytes. -/
def writtenByte (w : Action) (offset : Int) : Except LowerError (Option (ZTerm (.bv 8))) :=
  if w.varOff.isSome || !(w.off ≤ offset && offset < w.off + max w.size 1) then pure none
  else do
    let width := max w.size 1 * 8
    let v ← M.lowerSome w.value
    let val := resize v width
    let val ← match w.old with
      | none => pure val
      | some old => do
          let o ← M.lower old
          pure (.bin .add (resize o width) val)
    pure (some (.extract ((offset - w.off).toNat * 8) 8 val))

/-- When a write that may touch the location really does. -/
def writeGuard (fuel : Nat) (loc : Loc) (w : Event) : Except LowerError Guard := do
  let g := M.reachOf w.block
  let applies ← if g = .ff then pure .tt else M.appliesWith (M.presentFuel fuel) w
  let g := g.and applies
  match loc.mapId with
  | some mapId =>
      if loc.region ≠ .MAP || g = .ff then pure g
      else if (loc.mapKey.bind Expr.num?).isSome && (w.action.mapKey.bind Expr.num?).isSome then
        pure g
      else if loc.mapKey.isNone || w.action.mapKey.isNone then pure g
      else if Expr.sameOpt loc.mapKey w.action.mapKey then pure g
      else
        let a ← M.key mapId loc.mapKey
        let b ← M.key mapId w.action.mapKey
        pure (g.and (.term (.cmp .eq a b)))
  | none => pure g

/-- The byte at the entry of the program. -/
def initialAt (loc : Loc) : Except LowerError (Option (ZTerm (.bv 8))) :=
  match loc.region with
  | .PKT => pure (some (.select M.st.pkt (bvVal loc.off PKT_ADDR_BITS)))
  | .MAP =>
      match loc.mapId with
      | none => throw .noMap
      | some mapId => do
          let k ← M.key mapId loc.mapKey
          let val := Term.select (M.st.map mapId).value k
          if loc.off < 0 then throw (.negativeOffset loc.off)
          else
            let lo := loc.off.toNat * 8
            if lo + 8 ≤ valBits maps mapId then pure (some (.extract lo 8 val))
            else pure (some (bvVal 0 8))
  | .BSS => pure (some (.select (bssOf M.st loc.bssKey) (bvVal loc.off BSS_ADDR_BITS)))
  | .CTX => pure none

/-- A byte after those of the writes that `shown` admits: the latest one in the
list whose guard is true. -/
def byteAfter (fuel : Nat) (loc : Loc) (shown : Event → Bool) :
    Except LowerError (Option (ZTerm (.bv 8))) := do
  match ← M.initialAt loc with
  | none => pure none
  | some initial =>
      let t ← M.writes.foldlM (fun t w => do
        if !shown w || !mayAlias loc w.action then pure t
        else
          match ← M.writtenByte w.action loc.off with
          | none => pure t
          | some v => do
              let g ← M.writeGuard fuel loc w
              pure (g.ite v t)) initial
      pure (some t)

/-- The `size` bytes from an offset as they are before an instruction. -/
def read (fuel : Nat) (loc : Loc) (atBlock : Nat) (atIdx : Int) :
    Except LowerError (Option ZBv) := do
  let cells ← (List.range loc.size).mapM fun (i : Nat) =>
    M.byteAfter fuel { loc with off := loc.off + i, size := 1 } (M.visible · atBlock atIdx)
  match cells.mapM id with
  | none => pure none
  | some cells => do
      let t ← concatCells (cells.map fun c => ⟨8, c⟩)
      pure (some t)

/-- The byte at the end of a block. -/
def locByte (fuel : Nat) (loc : Loc) (atBlock : Nat) : Except LowerError (Option (ZTerm (.bv 8))) :=
  M.byteAfter fuel loc (M.ranBefore · atBlock)

end Memory

end Hornet
