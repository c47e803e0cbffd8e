import Hornet.Report.Returns
import Hornet.Verify.Calls
import Hornet.Verify.SpecLower

/-!
The specification that is written for a program to start from. It lays out the layers of the
packet, the condition for the observed returns, and for each block a condition that is turned
off, with atoms about what the block reads and calls.
-/

namespace Hornet

open Lib

/-! ## Facts -/

/-- The name under which a map is shown. -/
def MapDef.shownName (m : MapDef) : String :=
  match m.name with
  | none => "map" ++ toString m.id
  | some name => if name = "" then "map" ++ toString m.id else name

def mapNames (maps : List MapDef) : Dict Nat String := .ofList (maps.map fun m => (m.id, m.shownName))

def helperName (imm : Int) : String :=
  ((HELPER_IMM.reverse.find? (·.2 = imm)).map (·.1)).getD ("helper#" ++ toString imm)

/-- The first field with the place, if one has it. -/
def fieldName (off : Int) (size : Nat) : Option String :=
  (PROTOCOL_FIELDS.find? (·.2 = (off, (size : Int)))).map (·.1)

inductive ReadKind where
  | pkt | map
  deriving DecidableEq, Repr

structure Read where
  kind : ReadKind
  idx : Int
  off : Int
  size : Nat
  varOff : Bool
  mapName : Option String := none
  mapId : Option Nat := none
  field : Option String := none

/-- The read that a source is the value of. -/
def readOf (names : Dict Nat String) : Expr → Option Read
  | .pktVal _ idx off varOff size =>
      some { kind := .pkt, idx := idx, off := off, size := size, varOff := varOff.isSome
             field := fieldName off size }
  | .mapVal _ idx mapId _ _ off varOff size =>
      some { kind := .map, idx := idx, off := off, size := size, varOff := varOff.isSome
             mapName := mapId.bind names.get?, mapId := mapId }
  | _ => none

/-- The atom that asks whether the bytes are zero. -/
def Read.atom (r : Read) : Option (List (String × Json)) :=
  if r.varOff then none
  else
    match r.kind, r.field with
    | .pkt, some field => some [("field", .str field), ("value", .int 0), ("op", .str "eq")]
    | .pkt, none =>
        some [("offset", .int r.off), ("size", .int r.size), ("value", .int 0), ("op", .str "eq")]
    | .map, _ =>
        let place : List (String × Json) :=
          [("map", (r.mapName.map .str).getD .null), ("offset", .int r.off), ("size", .int r.size)]
        some [("read", .obj place), ("value", .int 0), ("op", .str "eq")]

structure Call where
  idx : Int
  imm : Int
  helper : String
  returns : CallRet
  mapId : Option Nat

def callOf (x : Int × CallRecord) : Call where
  idx := x.1
  imm := x.2.imm
  helper := helperName x.2.imm
  returns := x.2.ret
  mapId := x.2.mapId

/-- The atom that asks for a hit, or whether the result is zero. -/
def Call.atom (c : Call) : Option (List (String × Json)) :=
  match c.returns with
  | .transfer => none
  | .pointer =>
      some [("idx", .int c.idx), ("helper", .str c.helper), ("returns", .str "non_null")]
  | .scalar =>
      some [("idx", .int c.idx), ("helper", .str c.helper), ("op", .str "eq"), ("value", .int 0)]

/-- What a block does, as it is reported. -/
structure BlockContents where
  num : Nat
  kind : BlockKind
  branches : Bool
  reads : List Read
  calls : List Call
  writes : List Action
  phis : Nat
  progEntry : Option String

def BlockContents.interesting (b : BlockContents) : Bool :=
  !b.reads.isEmpty || !b.calls.isEmpty || b.kind = .exit || b.progEntry.any (· ≠ "")

section Collect

variable (lenView : Event → Option Int)

/-- The program that is entered at a block by a tail call. -/
def progEntryOf (progs : List ProgRegion) (b : Block) : Option String :=
  (progs.reverse.find? fun r => !r.isMain && r.start = b.start).map (·.name)

def blockContents (names : Dict Nat String) (progs : List ProgRegion) (b : Block) :
    BlockContents where
  num := b.num
  kind := b.kind
  branches := b.cond.isSome
  reads := (b.sources.filterMap (readOf names)).insertionSort (·.idx ≤ ·.idx)
  calls := (((b.retvals.map fun r => (r.idx, r.callRecord)) ++
    b.actions.filterMap fun e => (e.callRecord lenView).map (e.idx, ·)).map callOf).insertionSort
      (·.idx ≤ ·.idx)
  writes := (b.actions.filter fun e => (e.callRecord lenView).isNone).map (·.action)
  phis := b.sources.countP fun v => match v with
    | .joinValue .. => true
    | _ => false
  progEntry := progEntryOf progs b

structure MapFact where
  id : Nat
  name : String
  lookups : List Call

def mapFacts (maps : List MapDef) (blocks : List BlockContents) : List MapFact :=
  ((mapNames maps).entries.map fun x =>
    { id := x.1, name := x.2
      lookups := (blocks.flatMap (·.calls)).filter fun c =>
        c.mapId = some x.1 && c.imm = 1 }).insertionSort (·.id ≤ ·.id)

/-- The places in the packet that are read, in order. -/
def pktReads (blocks : List BlockContents) : List (Int × Nat) :=
  (((blocks.flatMap (·.reads)).filter fun r => r.kind = .pkt && !r.varOff).map
    fun r => (r.off, r.size)).dedup.insertionSort fun x y => x.1 < y.1 ∨ (x.1 = y.1 ∧ x.2 ≤ y.2)

structure ProgramFacts where
  maps : List MapFact
  blocks : List BlockContents
  exits : List ExitFact
  pktReads : List (Int × Nat)

def collectFacts (I : ObjectIdentity) (maps : List MapDef) (progs : List ProgRegion)
    (blocks : List Block) : ProgramFacts :=
  let contents := blocks.map (blockContents lenView (mapNames maps) progs)
  { maps := mapFacts maps contents, blocks := contents, exits := exitFacts I blocks
    pktReads := pktReads contents }

end Collect

namespace ProgramFacts

/-- Where the deepest read ends. -/
def depth (f : ProgramFacts) : Int := ((f.pktReads.map fun x => x.1 + (x.2 : Int)).max?).getD 0

/-- The layers that the reads reach into. -/
def packetTemplate (f : ProgramFacts) : String :=
  let hasL4 : Bool := f.depth > 34 || f.pktReads.any (· = (23, 1))
  "/".intercalate (["Ether()"] ++ (if f.depth > 14 then ["IP()"] else []) ++
    if hasL4 && f.depth > 34 then ["TCP()"] else [])

end ProgramFacts

/-! ## The specification -/

/-- What stands under the `_` keys for a reader. -/
structure Notes where
  top : String → Json
  ofMap : Nat → Json
  ofBlock : Nat → String → Json
  ofExit : String → Json

section Spec

variable (notes : Notes)

def mapsNode (f : ProgramFacts) : Json :=
  .obj (Dict.ofList ((f.maps.filter fun m => !m.lookups.isEmpty).map
    fun m => ("_" ++ m.name, notes.ofMap m.id))).entries

def inputNode (f : ProgramFacts) : Json :=
  .obj ((if f.pktReads.isEmpty then [("context", .obj [("pkt_len", .int 64)])]
    else
      [("_packet", notes.top "_packet"), ("packet", .str f.packetTemplate),
        ("_context", notes.top "_context"), ("context", .obj [("pkt_len", .int (max f.depth 54))])]) ++
    [("maps", mapsNode notes f)])

namespace BlockContents

/-- The notes on a block, but for its atoms. -/
def noteKeys (b : BlockContents) : List String :=
  ([("_program", b.progEntry.any (· ≠ "")), ("_cfg", true), ("_when_taken", b.branches),
    ("_returns", decide (b.kind = .exit)), ("_reads", !b.reads.isEmpty),
    ("_calls", !b.calls.isEmpty), ("_phis", decide (b.phis ≠ 0)),
    ("_writes", !b.writes.isEmpty)].filter (·.2)).map (·.1)

def atoms (b : BlockContents) : List (List (String × Json)) :=
  b.calls.filterMap Call.atom ++ b.reads.filterMap Read.atom

/-- All lookups hit. -/
def hits (b : BlockContents) : Json :=
  match (b.calls.filter (·.returns = .pointer)).filterMap Call.atom with
  | [] => .obj [("and", .arr [])]
  | [a] => .obj a
  | as => .obj [("and", .arr (as.map .obj))]

/-- The condition for a block, with `cond` in its place. -/
def node (b : BlockContents) (cond : Json) : Json :=
  .obj ([("block", .int b.num)] ++ b.noteKeys.map (fun k => (k, notes.ofBlock b.num k)) ++
    (if b.atoms.isEmpty then [] else [("_atoms", .arr (b.atoms.map .obj))]) ++
    [("assert", .str "exists"), ("_cond", notes.ofBlock b.num "_cond"), ("cond", cond)])

/-- The condition for a block, which is turned off by its name. -/
def disabled (b : BlockContents) : String × Json := ("_b" ++ toString b.num, b.node notes b.hits)

/-- The condition turned on, as it is or with a tree in the place of its condition. -/
def enabled (b : BlockContents) (tree : Option CondTree) : String × Json :=
  ("b" ++ toString b.num, b.node notes ((tree.map CondTree.json).getD b.hits))

/-- What a reader makes of the condition: it stays turned off, or is turned on. -/
def edited (edit : Nat → Option (Option CondTree)) (b : BlockContents) : String × Json :=
  match edit b.num with
  | none => b.disabled notes
  | some tree => b.enabled notes tree

end BlockContents

def exitNode (key : String) (cond : Json) : Json :=
  .obj [("_note", notes.ofExit key), ("assert", .str "all"), ("cond", cond)]

def retAtom (code : Int) : Json := .obj [("ret", .int code)]

/-- The conditions for the exits. Without codes there is none that is turned on. -/
def exitEntries : Option (List Int) → List (String × Json)
  | none | some [] =>
      [("_observed_returns", exitNode notes "_observed_returns" (.obj [("and", .arr [])]))]
  | some (c :: cs) =>
      let cond : Json := if cs.isEmpty then retAtom c else .obj [("or", .arr ((c :: cs).map retAtom))]
      [("observed_returns", exitNode notes "observed_returns" cond),
        ("_one_return_only", exitNode notes "_one_return_only" (retAtom c))]

/-- The blocks for which conditions are written. -/
def ProgramFacts.chosen (f : ProgramFacts) (blocks : Option (List Nat)) : List BlockContents :=
  match blocks with
  | some nums => f.blocks.filter (·.num ∈ nums)
  | none => f.blocks.filter BlockContents.interesting

/-- A specification with the given conditions for blocks. -/
def specWith (f : ProgramFacts) (entries : List (String × Json)) : Json :=
  .obj [("_hornet", notes.top "_hornet"), ("_howto", notes.top "_howto"),
    ("input", inputNode notes f), ("block_conditions", .obj entries),
    ("exit_conditions", .obj (exitEntries notes (retCodes f.exits)))]

def specScaffold (f : ProgramFacts) (blocks : Option (List Nat)) : Json :=
  specWith notes f ((f.chosen blocks).map (·.disabled notes))

/-- The specification after a reader has turned on the conditions of some blocks. -/
def editedScaffold (f : ProgramFacts) (blocks : Option (List Nat))
    (edit : Nat → Option (Option CondTree)) : Json :=
  specWith notes f ((f.chosen blocks).map (·.edited notes edit))

end Spec

end Hornet
