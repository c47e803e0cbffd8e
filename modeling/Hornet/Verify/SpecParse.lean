import Hornet.Lib.Dict
import Hornet.Lib.Json
import Hornet.Load.Object
import Hornet.Verify.Packet
import Hornet.Verify.Spec

/-!
The parser of specifications. A specification is a JSON object with an input and with
conditions of blocks and of exits. What the parser raises is modelled as no result; a
`_` key is skipped at the top, among the conditions and among the maps.
-/

namespace Hornet

open Lib

/-- A key that is a note. -/
def isNote (k : String) : Bool := k.toList.head? = some '_'

/-- The entries that are no notes. -/
def named (entries : List (String × Json)) : List (String × Json) :=
  entries.filter fun x => !isNote x.1

def PROTOCOL_FIELDS : List (String × (Int × Int)) :=
  [("eth_dst", (0, 6)), ("eth_src", (6, 6)), ("eth_type", (12, 2)), ("ip_ver", (14, 1)),
    ("ip_tos", (15, 1)), ("ip_len", (16, 2)), ("ip_id", (18, 2)), ("ip_flags", (20, 2)),
    ("ip_ttl", (22, 1)), ("ip_proto", (23, 1)), ("ip_chk", (24, 2)), ("ip_src", (26, 4)),
    ("ip_dst", (30, 4)), ("tcp_sport", (34, 2)), ("tcp_dport", (36, 2)), ("udp_sport", (34, 2)),
    ("udp_dport", (36, 2))]

def HELPER_IMM : List (String × Int) :=
  [("bpf_map_lookup_elem", 1), ("bpf_ktime_get_ns", 5), ("bpf_get_prandom_u32", 7),
    ("bpf_get_smp_processor_id", 8), ("bpf_tail_call", 12), ("bpf_get_current_pid_tgid", 14),
    ("bpf_get_current_uid_gid", 15), ("bpf_redirect", 23), ("bpf_get_numa_node_id", 42),
    ("bpf_csum_diff", 28), ("bpf_xdp_adjust_head", 44), ("bpf_redirect_map", 51),
    ("bpf_xdp_adjust_meta", 54), ("bpf_xdp_adjust_tail", 65), ("bpf_jiffies64", 118),
    ("bpf_ktime_get_boot_ns", 125), ("bpf_ktime_get_coarse_ns", 160), ("bpf_xdp_get_buff_len", 188),
    ("bpf_ktime_get_tai_ns", 208)]

/-! ## Values -/

/-- `n.to_bytes(size, 'big')`. -/
def toBytesBig (n size : Int) : Option (List Int) :=
  if 0 ≤ size ∧ 0 ≤ n ∧ n < 256 ^ size.toNat then
    some ((List.range size.toNat).map fun i => n / 256 ^ (size.toNat - 1 - i) % 256)
  else none

/-- A list of bytes that has to have the given size. -/
def ofSize (size : Int) (bytes : List Int) : Option (List Int) :=
  if (bytes.length : Int) = size then some bytes else none

/-- The bytes that a string denotes: in hex, as an IPv4 or a MAC address, or as a number. -/
def parseStrBytes (v : List Char) (size : Int) : Option (List Int) :=
  if v.take 2 = ['0', 'x'] ∨ v.take 2 = ['0', 'X'] then
    (PyStr.int16 v).bind (toBytesBig · size)
  else if v.contains '.' then ((v.splitOn '.').mapM PyStr.int).bind (ofSize size)
  else if v.contains ':' then ((v.splitOn ':').mapM PyStr.int16).bind (ofSize size)
  else (PyStr.int v).bind (toBytesBig · size)

def parseValBytes (size : Int) : Json → Option (List Int)
  | .int n => toBytesBig n size
  | .arr items =>
      if (items.length : Int) = size then items.mapM fun b => b.toInt.map (· % 256) else none
  | .str s => parseStrBytes (PyStr.strip s.toList) size
  | _ => none

/-- The number whose bytes are given lowest first. -/
def intOfBytes : List Int → Nat
  | [] => 0
  | b :: bs => b.toNat + 256 * intOfBytes bs

def parseMultibyteInt (size : Int) (value : Json) : Option Nat := do
  let bytes ← parseValBytes size value
  if bytes.all fun b => 0 ≤ b && b < 256 then some (intOfBytes bytes) else none

def parseInt : Json → Option Int
  | .int n => some n
  | .str s =>
      let v := PyStr.strip s.toList
      if v.take 2 = ['0', 'x'] ∨ v.take 2 = ['0', 'X'] then PyStr.int16 v else PyStr.int v
  | _ => none

/-! ## The input -/

/-- What the packet library does: it evaluates a packet expression to layers of fields,
knows which fields the expression assigned, and builds the bytes. -/
structure Scapy (F : Type) where
  eval : String → Option (List (List F))
  assigned : F → Bool
  addfield : PacketBuf → F → PacketBuf

structure InputSpec where
  pktBytes : List (Nat × UInt8)
  pktLen : Option Int
  mapValues : Dict Nat (Dict Nat Nat)
  ingressIfindex : Option Int
  rxQueueIndex : Option Int
  egressIfindex : Option Int

/-- A map by its number or its name. -/
def resolveMap (maps : Option (List MapDef)) (ref : Json) : Option MapDef :=
  maps.bind fun maps => maps.find? fun m => ref.eqInt m.id || ref.eqName m.name

/-- What a key of `input.maps` refers to: a number if it is one. -/
def mapRef (ref : String) : Option Json :=
  if PyStr.isDigit (ref.toList.dropWhile (· = '-')) then (PyStr.int ref.toList).map .int
  else some (.str ref)

def parseEntry (m : MapDef) (x : String × Json) : Option (Nat × Nat) := do
  let k ← parseMultibyteInt m.keySize (.str x.1)
  let v ← parseMultibyteInt m.valueSize x.2
  pure (k, v)

def parseEntries (m : MapDef) (entries : Json) : Option (Dict Nat Nat) :=
  if !entries.truthy then some Dict.empty
  else
    match entries with
    | .obj es => (es.mapM (parseEntry m)).map Dict.ofList
    | _ => none

def parseMapValue (maps : Option (List MapDef)) (x : String × Json) :
    Option (Nat × Dict Nat Nat) := do
  let ref ← mapRef x.1
  let m ← resolveMap maps ref
  if m.type = BPF_MAP_TYPE_PROG_ARRAY then none
  else
    let kv ← parseEntries m x.2
    pure (m.id, kv)

def parseMapValues (maps : Option (List MapDef)) (node : Json) :
    Option (Dict Nat (Dict Nat Nat)) :=
  if !node.truthy then some Dict.empty
  else
    match node with
    | .obj es => ((named es).mapM (parseMapValue maps)).map Dict.ofList
    | _ => none

/-- `ctx[name] if name in ctx`, where the context need not be an object. -/
def ctxValue (ctx : Json) (name : String) : Option (Option Json) :=
  if !ctx.truthy then some none
  else
    match ctx with
    | .obj es => some (Json.get es name)
    | .str s => if name.toList <:+: s.toList then none else some none
    | .arr items => if items.any (·.str? = some name) then none else some none
    | _ => none

def ctxInt (ctx : Json) (name : String) : Option (Option Int) := do
  match ← ctxValue ctx name with
  | none => pure none
  | some v => (parseInt v).map some

section Parser

variable {F : Type} (scapy : Scapy F) (maps : Option (List MapDef))

/-- The bytes of a packet expression and the mask of those that it fixes. -/
def packetFacts : Json → Option (List UInt8 × List Bool)
  | .str expr => do
      let layers ← scapy.eval expr
      (packetByteFacts scapy.assigned scapy.addfield layers).toOption
  | _ => none

def parseInput : Json → Option InputSpec
  | .obj es => do
      let facts ← (Json.get es "packet").mapM (packetFacts scapy)
      let fixed ← ((facts.map fun x => pktBytes x.1 x.2).getD []).mapM fun x =>
        x.2.map fun b => (x.1, b)
      let ctx := (Json.get es "context").getD (.obj [])
      let declared ← ctxInt ctx "pkt_len"
      let mapValues ← parseMapValues maps ((Json.get es "maps").getD .null)
      let ingressIfindex ← ctxInt ctx "ingress_ifindex"
      let rxQueueIndex ← ctxInt ctx "rx_queue_index"
      let egressIfindex ← ctxInt ctx "egress_ifindex"
      let own : Option Int := facts.map fun x => (x.1.length : Int)
      -- the declared length may not be shorter than the packet's own
      if declared.any fun d => own.any fun n => d < n then none
      else
        pure
          { pktBytes := fixed, pktLen := declared.or own, mapValues := mapValues
            ingressIfindex := ingressIfindex, rxQueueIndex := rxQueueIndex
            egressIfindex := egressIfindex }
  | _ => none

end Parser

/-! ## Atoms -/

/-- What a helper call returns. -/
inductive CallRet where
  | transfer | scalar | pointer
  deriving DecidableEq, Repr

/-- A recorded helper call. -/
structure CallRecord where
  imm : Int
  ret : CallRet
  retSize : Nat
  retval : Expr
  mapId : Option Nat
  mapKey : Option Expr
  mapKeyId : Option Int

/-- The atoms as they are read. The bounds of a length are kept as they stand. -/
inductive SpecAtom where
  | pkt (offset size : Int) (data : List Int) (op : EqOp)
  | map (mapId : Nat) (key : Nat) (present : Option Bool) (value : Option Nat)
      (keySize valueSize : Nat)
  | bss (sym : String) (offset size : Int) (value : Nat) (op : EqOp)
  | len (min max : Json)
  | scalar (target : CtxTarget) (value : Int)
  | helperScalar (imm idx : Int) (size : Nat) (op : RelOp) (value : Int) (retval : Expr)
  | helperNull (imm idx : Int) (result : Bool) (mapId : Option Nat) (mapKey : Option Expr)
      (mapKeyId : Option Int)
  | ret (op : RelOp) (value : Int)
  | read (parts : List (Expr × Nat)) (op : EqOp) (target : Nat) (size : Int) (region : WriteRegion)
      (offset : Int) (mapId : Option Nat)

def hasKey (a : List (String × Json)) (k : String) : Bool := (Json.get a k).isSome

def parseEqOp (op : Json) : Option EqOp :=
  match op.str? with
  | some "eq" => some .eq
  | some "ne" => some .ne
  | _ => none

def parseRelOp (op : Json) : Option RelOp :=
  match op.str? with
  | some "eq" => some .eq
  | some "ne" => some .ne
  | some "lt" => some .lt
  | some "le" => some .le
  | some "gt" => some .gt
  | some "ge" => some .ge
  | _ => none

def parseReturns (ret : Json) : Option Bool :=
  match ret.str? with
  | some "null" => some false
  | some "non_null" => some true
  | _ => none

def ctxTarget (name : Json) : Option CtxTarget :=
  match name.str? with
  | some "ingress_ifindex" => some .ingress
  | some "rx_queue_index" => some .rxIndex
  | some "egress_ifindex" => some .egress
  | _ => none

/-- The helper that an atom names is the one that is called. -/
def checkHelper (call : CallRecord) (helper : Json) : Option Unit := do
  let name ← helper.str?
  let want ← HELPER_IMM.lookup name
  if want = call.imm then some () else none

def parseHelperAtom (calls : Option (Dict Int CallRecord)) (a : List (String × Json)) :
    Option SpecAtom := do
  let calls ← calls
  let idx ← (Json.get a "idx").bind parseInt
  let call ← calls.get? idx
  (Json.get a "helper").elim (some ()) (checkHelper call)
  match call.ret with
  | .transfer => none
  | .scalar => do
      let op ← (Json.get a "op").bind parseRelOp
      let value ← (Json.get a "value").bind parseInt
      pure (.helperScalar call.imm idx call.retSize op value call.retval)
  | .pointer => do
      let result ← (Json.get a "returns").bind parseReturns
      pure (.helperNull call.imm idx result call.mapId call.mapKey call.mapKeyId)

def parseRetAtom (block : Option Int) (a : List (String × Json)) : Option SpecAtom :=
  if block.isSome then none
  else do
    let op ← (Json.get a "op").elim (some .eq) parseRelOp
    let value ← (Json.get a "ret").bind parseInt
    pure (.ret op value)

def parseBssAtom (op : EqOp) (a : List (String × Json)) : Option SpecAtom := do
  let sym ← (Json.get a "bss").bind Json.str?
  let size ← (Json.get a "size").bind Json.toInt
  let offset ← (Json.get a "offset").elim (some 0) Json.toInt
  let value ← (Json.get a "value").bind (parseMultibyteInt size)
  if size < 1 then none else pure (.bss sym offset size value op)

/-- A member that is not `null`. -/
def given (a : List (String × Json)) (k : String) : Option Json :=
  (Json.get a k).filter fun v => !v.isNull

/-- The map, the key and the value of a map atom. -/
def mapAtomParts (maps : Option (List MapDef)) (a : List (String × Json)) :
    Option (MapDef × Nat × Option Nat) := do
  let m ← (Json.get a "map").bind (resolveMap maps)
  let present := given a "contains"
  let value := given a "value"
  if present.isNone && value.isNone then none
  else if value.isSome && present.any Json.isFalse then none
  else do
    let key ← (Json.get a "key").bind (parseMultibyteInt m.keySize)
    let value ← value.mapM (parseMultibyteInt m.valueSize)
    pure (m, key, value)

def parseMapAtom (maps : Option (List MapDef)) (a : List (String × Json)) : Option SpecAtom :=
  (mapAtomParts maps a).map fun (m, key, value) =>
    .map m.id key ((given a "contains").map Json.truthy) value m.keySize m.valueSize

/-- The bounds of a length, as they stand. -/
def lenBounds : Json → Option (Json × Json)
  | .obj r => some ((Json.get r "min").getD .null, (Json.get r "max").getD .null)
  | _ => none

def parseLenAtom (a : List (String × Json)) : Option SpecAtom :=
  ((Json.get a "pkt_len").bind lenBounds).map fun r => .len r.1 r.2

def parseCtxAtom (a : List (String × Json)) : Option SpecAtom := do
  let target ← (Json.get a "ctx").bind ctxTarget
  let value ← (Json.get a "value").bind parseInt
  pure (.scalar target value)

/-- Where the bytes of a packet atom are, by the name of a field or by an offset. -/
def pktPlace (a : List (String × Json)) : Option (Int × Int) :=
  let bytes : Option (Int × Int) := do
    let offset ← (Json.get a "offset").bind Json.toInt
    let size ← (Json.get a "size").bind Json.toInt
    pure (offset, size)
  (Json.get a "field").elim bytes fun name => name.str?.bind (PROTOCOL_FIELDS.lookup ·)

def parsePktAtom (op : EqOp) (a : List (String × Json)) : Option SpecAtom := do
  let (offset, size) ← pktPlace a
  let data ← (Json.get a "value").bind (parseValBytes size)
  pure (.pkt offset size data op)

/-- The bytes that were read from the packet or from a map, each as a byte of a value. -/
def byteIndex (sources : List Expr) (region : WriteRegion) (mapId : Option Nat) :
    Dict Int (Expr × Nat) :=
  sources.foldl (fun out v =>
    match region, v with
    | .PKT, .pktVal _ _ off none size =>
        (List.range size).foldl (fun out (i : Nat) => out.set (off + i) (v, i)) out
    | .MAP, .mapVal _ _ id _ _ off _ size =>
        if id = mapId then
          (List.range size).foldl (fun out (i : Nat) => out.set (off + i) (v, i)) out
        else out
    | _, _ => out) Dict.empty

/-- The bytes from an offset on, if all of them were read. -/
def assemble (sources : List Expr) (region : WriteRegion) (offset size : Int) (mapId : Option Nat) :
    Option (List (Expr × Nat)) :=
  (List.range size.toNat).mapM fun (i : Nat) => (byteIndex sources region mapId).get? (offset + i)

/-- The values that a block has read, if it is a tracked one. -/
def readSources (blocks : Option (List Block)) (block : Option Int) : Option (List Expr) := do
  let block ← block
  let blocks ← blocks
  if 0 ≤ block then (blocks[block.toNat]?).map (·.sources) else none

/-- The bytes of a map value or of the packet that a read atom is about. -/
structure ReadPlace where
  region : WriteRegion
  offset : Int
  size : Int
  mapId : Option Nat

def mapPlace (maps : Option (List MapDef)) (size : Int) (offset : Option Json) (ref : Json) :
    Option ReadPlace := do
  let m ← resolveMap maps ref
  let offset ← offset.elim (some 0) Json.toInt
  pure { region := .MAP, offset := offset, size := size, mapId := some m.id }

def readPlace (maps : Option (List MapDef)) : Json → Option ReadPlace
  | .obj spec => do
      let size ← (Json.get spec "size").bind Json.toInt
      let packet : Option ReadPlace := do
        let offset ← (Json.get spec "offset").bind Json.toInt
        pure { region := .PKT, offset := offset, size := size, mapId := none }
      (Json.get spec "map").elim packet (mapPlace maps size (Json.get spec "offset"))
  | _ => none

def parseReadAtom (maps : Option (List MapDef)) (blocks : Option (List Block))
    (block : Option Int) (a : List (String × Json)) : Option SpecAtom := do
  let sources ← readSources blocks block
  let op ← (Json.get a "op").elim (some .eq) parseEqOp
  let place ← (Json.get a "read").bind (readPlace maps)
  let parts ← assemble sources place.region place.offset place.size place.mapId
  let target ← (Json.get a "value").bind (parseMultibyteInt place.size)
  pure (.read parts op target place.size place.region place.offset place.mapId)

section Conditions

variable (maps : Option (List MapDef)) (calls : Option (Dict Int CallRecord))
  (blocks : Option (List Block))

def parseAtom (block : Option Int) (a : List (String × Json)) : Option SpecAtom :=
  if hasKey a "idx" then parseHelperAtom calls a
  else if hasKey a "ret" then parseRetAtom block a
  else if hasKey a "read" then parseReadAtom maps blocks block a
  else do
    let op ← (Json.get a "op").elim (some .eq) parseEqOp
    if hasKey a "bss" then parseBssAtom op a
    else if hasKey a "map" then parseMapAtom maps a
    else if hasKey a "pkt_len" then parseLenAtom a
    else if hasKey a "ctx" then parseCtxAtom a
    else parsePktAtom op a

/-! ## Conditions -/

inductive SpecCond where
  | leaf (atom : SpecAtom)
  | not (child : SpecCond)
  | and (children : List SpecCond)
  | or (children : List SpecCond)

mutual

/-- A condition: an object with a combinator as its only entry, or an atom. -/
def parseCond (block : Option Int) : Json → Option SpecCond
  | .obj [(op, kids)] =>
      if op = "not" then
        match kids with
        | .arr [kid] => (parseCond block kid).map .not
        | .arr _ => none
        | kid => (parseCond block kid).map .not
      else if op = "and" ∨ op = "or" then
        match kids with
        | .arr [] => some (.and [])
        | .arr kids => (parseConds block kids).map (if op = "and" then .and else .or)
        | _ => none
      else (parseAtom maps calls blocks block [(op, kids)]).map .leaf
  | .obj a => (parseAtom maps calls blocks block a).map .leaf
  | _ => none
termination_by structural c => c

def parseConds (block : Option Int) : List Json → Option (List SpecCond)
  | [] => some []
  | c :: cs => do
      let node ← parseCond block c
      let nodes ← parseConds block cs
      pure (node :: nodes)
termination_by structural cs => cs

end

def parseMode (mode : Json) : Option AssertMode :=
  match mode.str? with
  | some "all" => some .all
  | some "exists" => some .exists
  | _ => none

/-- The condition of a node; without one it is always true. -/
def nodeCond (node : List (String × Json)) : Json :=
  (Json.get node "cond").getD (.obj [("and", .arr [])])

structure SpecBlockCondition where
  name : String
  block : Int
  assertMode : AssertMode
  cond : SpecCond

structure SpecExitCondition where
  name : String
  assertMode : AssertMode
  cond : SpecCond

/-- A block that is tracked, if the blocks are known. -/
def checkBlock (block : Int) : Option Unit :=
  match blocks with
  | none => some ()
  | some blocks => if 0 ≤ block ∧ block < blocks.length then some () else none

def parseBlockCondition (name : String) : Json → Option SpecBlockCondition
  | .obj node => do
      let block ← (Json.get node "block").bind Json.toInt
      checkBlock blocks block
      let mode ← (Json.get node "assert").elim (some .exists) parseMode
      (parseCond maps calls blocks (some block) (nodeCond node)).map fun cond =>
        { name := name, block := block, assertMode := mode, cond := cond }
  | _ => none

def parseExitCondition (name : String) : Json → Option SpecExitCondition
  | .obj node => do
      let mode ← (Json.get node "assert").elim (some .exists) parseMode
      (parseCond maps calls none none (nodeCond node)).map fun cond =>
        { name := name, assertMode := mode, cond := cond }
  | _ => none

/-- The conditions of a section. Its notes are skipped. -/
def parseSection {C : Type} (parse : String → Json → Option C) (node : Json) : Option (List C) :=
  if !node.truthy then some []
  else
    match node with
    | .obj es => (named es).mapM fun x => parse x.1 x.2
    | _ => none

/-! ## Specifications -/

structure Policy where
  input : Option InputSpec
  blockConditions : List SpecBlockCondition
  exitConditions : List SpecExitCondition

def TOP_LEVEL_KEYS : List String := ["input", "block_conditions", "exit_conditions"]

variable {F : Type} (scapy : Scapy F)

def parseSpec : Json → Option Policy
  | .obj raw =>
      if !(named raw).all fun x => TOP_LEVEL_KEYS.contains x.1 then none
      else if !TOP_LEVEL_KEYS.any (hasKey raw) then none
      else do
        let input ← (Json.get raw "input").mapM (parseInput scapy maps)
        let blockConditions ← parseSection (parseBlockCondition maps calls blocks)
          ((Json.get raw "block_conditions").getD .null)
        (parseSection (parseExitCondition maps calls)
          ((Json.get raw "exit_conditions").getD .null)).map fun exitConditions =>
            { input := input, blockConditions := blockConditions
              exitConditions := exitConditions }
  | _ => none

end Conditions

end Hornet
