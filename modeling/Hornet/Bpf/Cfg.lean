import Hornet.Track.Block
import Mathlib.Data.List.Sort
import Mathlib.Data.List.Dedup

/-!
The construction of the control-flow graph. The blocks run from one leader to
the next; the last instruction of a block decides its successors, and each edge
is entered into the predecessor list of its target when the source is visited,
the taken edge before the fall-through edge.
-/

namespace Hornet

inductive CfgError where
  | noCallee («end» : Nat)
  | noTailTarget («end» : Nat) (mapId : Nat)
  | ambiguousCallee («end» : Nat)
  | noInstruction («end» : Nat)
  | jumpTarget («end» : Nat)
  | fallThrough («end» : Nat)
  | regionStart (start : Nat)
  deriving DecidableEq, Repr

/-- The map that the last `lddw r2` before the tail call loads. -/
def tailMap (instrs : List Instr) (start «end» : Nat) : Option Nat :=
  (List.range' start («end» - start)).reverse.findSome? fun i =>
    match instrs[i]? with
    | some ins =>
        if ins.opcodeClass = .LD && ins.opcodeMode = .IMM && ins.dstReg = 2 then
          match ins.reloc with
          | some (.map tag) => some tag
          | _ => none
        else none
    | none => none

/-- The callee of the tail call at `end`. -/
def tailTarget (instrs : List Instr) (start «end» : Nat) (progs : List ProgRegion) :
    Except CfgError ProgRegion :=
  let callees := progs.filter (!·.isMain)
  if callees.isEmpty then throw (.noCallee «end»)
  else
    match tailMap instrs start «end» with
    | some mapId =>
        match callees.find? (·.mapId = some mapId) with
        | some r => pure r
        | none => throw (.noTailTarget «end» mapId)
    | none =>
        match callees with
        | [r] => pure r
        | _ => throw (.ambiguousCallee «end»)

/-- The leaders that the instruction at `i` adds. -/
def instrLeaders (n i : Nat) (instr : Instr) : List Nat :=
  let next := if i + 1 < n then [i + 1] else []
  if !instr.isJump then []
  else if instr.isExit then next
  else if instr.isCall then if instr.isTailCall then next else []
  else
    let target : Int := i + 1 + instr.jumpOffset
    (if 0 ≤ target && target < n then [target.toNat] else []) ++ next

/-- The first instructions of the blocks, in order. -/
def leaders (instrs : List Instr) (progs : List ProgRegion) : List Nat :=
  (0 :: progs.map (·.start) ++
    instrs.zipIdx.flatMap fun x => instrLeaders instrs.length x.2 x.1).dedup.insertionSort (· ≤ ·)

/-- The blocks before any edge is known. -/
def cutBlocks (instrs : List Instr) (starts : List Nat) : List Block :=
  starts.zipIdx.map fun x =>
    { num := x.2, start := x.1
      «end» := match starts[x.2 + 1]? with
        | some next => next - 1
        | none => instrs.length - 1 }

/-- The block that starts at an instruction. -/
def blockStartMap (starts : List Nat) (target : Int) : Option Nat :=
  if 0 ≤ target then starts.idxOf? target.toNat else none

/-- What the last instruction of a block makes of it. -/
structure BlockEnd where
  succT : Option Nat := none
  succF : Option Nat := none
  exit : Bool := false
  jump : Bool := false
  branch : Bool := false

def Block.endWith (b : Block) (e : BlockEnd) : Block :=
  { b with succT := e.succT, succF := e.succF, exit := e.exit, jump := e.jump, branch := e.branch }

/-- Adds the fall-through edge, which has to exist. -/
def fallsInto (starts : List Nat) («end» : Nat) (e : BlockEnd) : Except CfgError BlockEnd :=
  match blockStartMap starts («end» + 1) with
  | some succ => pure { e with succF := some succ }
  | none => throw (.fallThrough «end»)

def tailCallEnd (instrs : List Instr) (progs : List ProgRegion) (starts : List Nat)
    (start «end» : Nat) : Except CfgError BlockEnd := do
  let callee ← tailTarget instrs start «end» progs
  match blockStartMap starts callee.start with
  | some succ => fallsInto starts «end» { succT := some succ, branch := true }
  | none => throw (.jumpTarget «end»)

def branchEnd (starts : List Nat) (num «end» : Nat) (last : Instr) : Except CfgError BlockEnd := do
  match blockStartMap starts («end» + 1 + last.offset) with
  | none => throw (.jumpTarget «end»)
  | some succ =>
      let e ← fallsInto starts «end» { succT := some succ, branch := true }
      if e.succF ≠ some (num + 1) then throw (.fallThrough «end») else pure e

def jumpEnd (instrs : List Instr) (progs : List ProgRegion) (starts : List Nat)
    (num start «end» : Nat) (last : Instr) : Except CfgError BlockEnd :=
  match last.jmpCode with
  | .JA =>
      match blockStartMap starts («end» + 1 + last.jumpOffset) with
      | some succ => pure { succT := some succ, jump := true }
      | none => throw (.jumpTarget «end»)
  | .CALL =>
      if last.isTailCall then tailCallEnd instrs progs starts start «end»
      else fallsInto starts «end» {}
  | .EXIT => pure { exit := true }
  | _ => branchEnd starts num «end» last

def blockEnd (instrs : List Instr) (progs : List ProgRegion) (starts : List Nat)
    (num start «end» : Nat) : Except CfgError BlockEnd :=
  match instrs[«end»]? with
  | none => throw (.noInstruction «end»)
  | some last =>
      if last.isJump then jumpEnd instrs progs starts num start «end» last
      else pure { succF := blockStartMap starts («end» + 1) }

def addPred (blocks : List Block) (pred succ : Nat) : List Block :=
  blocks.modify succ fun b => { b with preds := b.preds ++ [pred] }

/-- Ends block `i` and enters its edges at their targets. -/
def linkBlock (instrs : List Instr) (progs : List ProgRegion) (starts : List Nat)
    (blocks : List Block) (i : Nat) : Except CfgError (List Block) := do
  match blocks[i]? with
  | none => pure blocks
  | some b =>
      let e ← blockEnd instrs progs starts b.num b.start b.end
      let blocks := blocks.modify i (·.endWith e)
      pure ((e.succT.toList ++ e.succF.toList).foldl (addPred · i) blocks)

/-- Marks the entry block of a program other than the main one's. -/
def markEntry (starts : List Nat) (blocks : List Block) (region : ProgRegion) :
    Except CfgError (List Block) :=
  match blockStartMap starts region.start with
  | none => throw (.regionStart region.start)
  | some entry =>
      pure (if entry = 0 then blocks
        else blocks.modify entry fun b => { b with progEntry := some region })

def buildCfg (instrs : List Instr) (progs : List ProgRegion) : Except CfgError (List Block) := do
  let starts := leaders instrs progs
  let blocks ← (List.range starts.length).foldlM (linkBlock instrs progs starts)
    (cutBlocks instrs starts)
  progs.foldlM (markEntry starts) blocks

end Hornet
