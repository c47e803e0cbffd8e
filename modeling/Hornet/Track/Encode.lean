import Hornet.Smt.Term
import Hornet.Track.Record

/-!
The lowering of tracked values, branch conditions and actions to terms. A
`Z3State` holds the symbolic state; `Reads` holds the hooks through which a
context redirects reads of memory and join values. Without hooks every read is
resolved against the given state.
-/

namespace Hornet

open Smt

/-- The free variables of the encoding. -/
inductive Var where
  | pkt0
  | pktLen
  | rxQueueIndex0
  | ingressIfindex
  | egressIfindex
  | r0
  | present (mapId : Nat)
  | value (mapId : Nat)
  | adjustOk (idx : Int)
  | tailOk (idx : Int)
  | updateApplies (idx : Int)
  | branchTaken (num : Nat)
  | func (func : Nat) (idx : Int)
  | scalar (idx : Int)
  | phi (blockIdx : Nat) (regNum : Int)
  deriving DecidableEq, Repr

abbrev ZTerm := Term Var
abbrev ZBv := Bv Var
abbrev ZModel := Model Var

/-- The model in which every constant is zero. -/
def zeroModel : ZModel := fun s _ => s.zero

/-- The exceptions of the lowering. -/
inductive LowerError where
  | noEncoding
  | unknownUnaryOp (op : AluOp)
  | unknownBinaryOp (op : AluOp)
  | unknownBranchCode (code : JmpOp)
  | emptySequence
  | negativeOffset (off : Int)
  | noMap
  | recursionLimit
  deriving DecidableEq, Repr

structure MapInfo where
  name : String
  type : Nat
  keySize : Nat
  valueSize : Nat
  maxEntries : Nat
  deriving DecidableEq, Repr

def ARRAY_MAP_TYPES : List Nat := [2, 6]
def HASH_MAP_TYPES : List Nat := [1, 5, 9, 10]
def PROG_MAP_TYPES : List Nat := [3]

def EINVAL : Int := 22
def PKT_ADDR_BITS : Nat := 16
def BSS_ADDR_BITS : Nat := 16
def RODATA_ADDR_BITS : Nat := 32

section Maps

variable (maps : List MapInfo)

def mapTypeIn (types : List Nat) (mapId : Nat) : Bool :=
  match maps[mapId]? with
  | some info => types.contains info.type
  | none => false

def isArrayMap (mapId : Nat) : Bool := mapTypeIn maps ARRAY_MAP_TYPES mapId
def isHashMap (mapId : Nat) : Bool := mapTypeIn maps HASH_MAP_TYPES mapId
def isProgMap (mapId : Nat) : Bool := mapTypeIn maps PROG_MAP_TYPES mapId

def maxEntries (mapId : Nat) : Nat := ((maps[mapId]?).map (·.maxEntries)).getD 0

/-- The width of the keys of a map, and with `valBits` the sorts of its two
arrays. -/
def keyBits (mapId : Nat) : Nat := max (((maps[mapId]?).map (·.keySize)).getD 0) 1 * 8

def valBits (mapId : Nat) : Nat := max (((maps[mapId]?).map (·.valueSize)).getD 0) 1 * 8

end Maps

/-- Presence and value array of one map. -/
structure MapArrays (maps : List MapInfo) (mapId : Nat) where
  present : ZTerm (.array (keyBits maps mapId) .bool)
  value : ZTerm (.array (keyBits maps mapId) (.bv (valBits maps mapId)))

abbrev PktArray := ZTerm (.array PKT_ADDR_BITS (.bv 8))
abbrev BssArray := ZTerm (.array BSS_ADDR_BITS (.bv 8))

structure Z3State (maps : List MapInfo) where
  pkt : PktArray
  map : (mapId : Nat) → MapArrays maps mapId
  r0 : ZTerm (.bv 64)
  rxIndex : ZTerm (.bv 64)
  ingress : ZTerm (.bv 64)
  egress : ZTerm (.bv 64)
  pktLen : ZTerm (.bv 64)
  bss : String → Option BssArray

/-- The state at the program's entry. -/
def makeInitState (maps : List MapInfo) : Z3State maps where
  pkt := .var .pkt0 _
  map mapId := ⟨.var (.present mapId) _, .var (.value mapId) _⟩
  r0 := .var .r0 _
  rxIndex := .var .rxQueueIndex0 _
  ingress := .var .ingressIfindex _
  egress := .var .egressIfindex _
  pktLen := .var .pktLen _
  bss _ := none

/-- A guard is a Python truth value or a term. -/
inductive Guard where
  | tt
  | ff
  | term (t : ZTerm .bool)
  deriving DecidableEq

namespace Guard

def eval (m : ZModel) : Guard → Bool
  | .tt => true
  | .ff => false
  | .term t => t.eval m

def and : Guard → Guard → Guard
  | .tt, b => b
  | a, .tt => a
  | .ff, _ => .ff
  | _, .ff => .ff
  | .term a, .term b => .term (.and a b)

def not : Guard → Guard
  | .tt => .ff
  | .ff => .tt
  | .term a => .term (.not a)

/-- The disjunction of terms that are neither true nor false. -/
def orTerms : ZTerm .bool → List (ZTerm .bool) → ZTerm .bool
  | t, [] => t
  | t, u :: us => .or t (orTerms u us)

def term? : Guard → Option (ZTerm .bool)
  | .term t => some t
  | _ => none

def orAll (gs : List Guard) : Guard :=
  if gs.any (· = .tt) then .tt
  else
    match gs.filterMap term? with
    | [] => .ff
    | t :: ts => .term (orTerms t ts)

/-- `t` when the guard is true and `e` when it is false. -/
def ite {s : Srt} (g : Guard) (t e : ZTerm s) : ZTerm s :=
  match g with
  | .tt => t
  | .ff => e
  | .term c => .ite c t e

end Guard

/-- The first arm whose guard is true; the last arm is taken unguarded. -/
def ifChain {s : Srt} : Guard × ZTerm s → List (Guard × ZTerm s) → ZTerm s
  | (_, t), [] => t
  | (g, t), x :: xs => g.ite t (ifChain x xs)

/-- The hooks of a context: where reads of memory are looked up, which term is
the presence of a key, and the guards and the state that join values are
lowered with. -/
structure Reads (maps : List MapInfo) where
  readPkt : Expr → Except LowerError (Option ZBv)
  readMap : Expr → Except LowerError (Option ZBv)
  readBss : Expr → Except LowerError (Option ZBv)
  readPresent : (mapId : Nat) → ZTerm (.bv (keyBits maps mapId)) → Option Nat → Option Int →
    Except LowerError (ZTerm .bool)
  guardOf : Edge → Guard
  base : Z3State maps

def resize (b : ZBv) (bits : Nat) : ZTerm (.bv bits) :=
  if h : b.size = bits then h ▸ b.term
  else if h : bits < b.size then .extract 0 bits b.term
  else .concat bits (by omega) (.const 0#(bits - b.size)) b.term

def bvVal (v : Int) (size : Nat) : ZTerm (.bv size) := .const (BitVec.ofInt size v)

def bitsUsed (b : ZBv) : Nat :=
  match b.value? with
  | some v => max v.size 1
  | none => b.size

/-- The bits a 64-bit operation needs. -/
def aluBits (op : AluOp) (dst src : ZBv) : Nat :=
  let a := bitsUsed dst
  let b := bitsUsed src
  match op with
  | .ADD => max a b + 1
  | .MUL => a + b
  | .LSH => match src.value? with
    | some v => a + v
    | none => 64
  | .SUB => 64
  | _ => max dst.size src.size

/-- The width at which a 64-bit operation is lowered: whole bytes, at most 64
bits. -/
def alu64Width (op : AluOp) (dst src : ZBv) : Nat :=
  min 64 (max 8 ((aluBits op dst src + 7) / 8 * 8))

/-- `Concat` of cells given lowest first. -/
def concatLE : ZBv → List ZBv → ZBv
  | b, [] => b
  | b, c :: cs =>
      let hi := concatLE c cs
      ⟨hi.size + b.size, .concat _ rfl hi.term b.term⟩

def concatCells : List ZBv → Except LowerError ZBv
  | [] => throw .emptySequence
  | b :: bs => pure (concatLE b bs)

/-- The `size` bytes of an array from `base`, lowest first. -/
def selectBytes {d : Nat} (arr : ZTerm (.array d (.bv 8))) (base : ZTerm (.bv d)) (size : Nat) :
    List ZBv :=
  (List.range size).map fun i => ⟨8, .select arr (.bin .add base (bvVal i d))⟩

def extractBytesVar {w : Nat} (cur : ZTerm (.bv w)) (offset : ZTerm (.bv w)) (size : Nat) : ZBv :=
  let shift := Term.bin .mul offset (bvVal 8 w)
  ⟨size * 8, resize ⟨w, .bin .lshr cur shift⟩ (size * 8)⟩

def spliceBytes {w : Nat} (cur : ZTerm (.bv w)) (offset size : Nat) (val : ZBv) : ZTerm (.bv w) :=
  let lo := offset * 8
  if w ≤ lo then cur
  else
    let hi := min ((offset + size) * 8) w
    let v : ZTerm (.bv (hi - lo)) := resize val (hi - lo)
    let low : ZBv := if lo > 0 then ⟨(hi - lo) + lo, .concat _ rfl v (.extract 0 lo cur)⟩
      else ⟨hi - lo, v⟩
    let whole : ZBv :=
      if hi < w then ⟨(w - hi) + low.size, .concat _ rfl (.extract hi (w - hi) cur) low.term⟩
      else low
    -- the parts fill the whole width; `resize` only states it in the type
    resize whole w

def spliceBytesVar {w : Nat} (cur offset : ZTerm (.bv w)) (size : Nat) (val : ZBv) :
    ZTerm (.bv w) :=
  let shift := Term.bin .mul offset (bvVal 8 w)
  let ones : ZBv := ⟨size * 8, bvVal (2 ^ (size * 8) - 1) (size * 8)⟩
  let mask := Term.bin .shl (resize ones w) shift
  let patched := Term.bin .and (.bin .shl (resize val w) shift) mask
  .bin .or (.bin .and cur (.compl mask)) patched

def rodataArray (data : List UInt8) : ZTerm (.array RODATA_ADDR_BITS (.bv 8)) :=
  data.zipIdx.foldl (fun arr x =>
    if x.1 ≠ 0 then .store arr (bvVal x.2 RODATA_ADDR_BITS) (bvVal x.1.toNat 8) else arr)
    (.constArray RODATA_ADDR_BITS (bvVal 0 8))

def aluUnary (op : AluOp) (opcodeS : OpSrc) (imm : Int) (size : Nat) (alu64 : Bool) (dst : ZBv) :
    Except LowerError ZBv :=
  match op with
  | .NEG =>
      let width := if size = 4 then 32 else 64
      pure ⟨width, .neg (resize dst width)⟩
  | .MOV =>
      let width := if size = 4 then 32 else 64
      pure ⟨width, .signExt width (.extract 0 imm.toNat (resize dst 64))⟩
  | .END =>
      let bits := if imm = 16 || imm = 32 || imm = 64 then imm.toNat else 64
      let low : ZTerm (.bv bits) := .extract 0 bits (resize dst 64)
      if alu64 || opcodeS = .reg then
        concatCells ((List.range (bits / 8)).map fun i =>
          (⟨8, .extract (8 * i) 8 low⟩ : ZBv)).reverse
      else pure ⟨bits, low⟩
  | op => throw (.unknownUnaryOp op)

/-- The amount of a shift: the low 5 or 6 bits of the operand. -/
def shiftAmount (size : AluSize) (src : ZBv) : ZBv :=
  let amtBits := match size with
    | .b4 => 5
    | .b8 => 6
  match src.value? with
  | some v => ⟨amtBits, bvVal (v % 2 ^ amtBits : Nat) amtBits⟩
  | none => ⟨amtBits, .extract 0 amtBits (resize src 64)⟩

/-- The operation on operands of its width. -/
def opAt (op : AluOp) (signed : Bool) (size : AluSize) {width : Nat} (d s : ZTerm (.bv width)) :
    Except LowerError ZBv :=
  match op with
  | .ADD => pure ⟨width, .bin .add d s⟩
  | .SUB => pure ⟨width, .bin .sub d s⟩
  | .MUL => pure ⟨width, .bin .mul d s⟩
  | .DIV =>
      let quot := Term.bin (if signed then .sdiv else .udiv) d s
      match (⟨width, s⟩ : ZBv).value? with
      | some v => pure ⟨width, if v = 0 then bvVal 0 width else quot⟩
      | none => pure ⟨width, .ite (.cmp .eq s (bvVal 0 width)) (bvVal 0 width) quot⟩
  | .OR => pure ⟨width, .bin .or d s⟩
  | .AND => pure ⟨width, .bin .and d s⟩
  | .LSH => pure ⟨width, .bin .shl d s⟩
  | .RSH => pure ⟨width, .bin .lshr d s⟩
  | .MOD => pure ⟨width, .bin (if signed then .srem else .urem) d s⟩
  | .XOR => pure ⟨width, .bin .xor d s⟩
  | .ARSH => pure ⟨width, .bin (if width = size.bytes * 8 then .ashr else .lshr) d s⟩
  | op => throw (.unknownBinaryOp op)

/-- The source operand, which a shift cuts down to its amount. -/
def opSource (op : AluOp) (size : AluSize) (src : ZBv) : ZBv :=
  if op = .LSH || op = .RSH || op = .ARSH then shiftAmount size src else src

def opWidth (op : AluOp) (signed : Bool) (size : AluSize) (dst src : ZBv) : Nat :=
  match size with
  | .b4 => 32
  | .b8 => if signed then 64 else alu64Width op dst src

def aluBinary (op : AluOp) (offset : Int) (size : AluSize) (dst src : ZBv) :
    Except LowerError ZBv :=
  let signed := offset = 1 && (op = .DIV || op = .MOD)
  let src := opSource op size src
  let width := opWidth op signed size dst src
  opAt op signed size (resize dst width) (resize src width)

section Lower

variable {maps : List MapInfo}

def bssOf (st : Z3State maps) (key : Option String) : BssArray :=
  (key.bind st.bss).getD (.constArray BSS_ADDR_BITS (bvVal 0 8))

/-- Whether a lookup of `key` hits. -/
def containTerm (R : Option (Reads maps)) (blk : Option Nat) (st : Z3State maps) (mapId : Nat)
    (key : ZBv) (mapKeyId : Option Int) (result : Bool) : Except LowerError (ZTerm .bool) := do
  let k := resize key (keyBits maps mapId)
  if isArrayMap maps mapId || isProgMap maps mapId then
    let inBounds := Term.cmp .ult k (bvVal (maxEntries maps mapId) (keyBits maps mapId))
    pure (if result then inBounds else .not inBounds)
  else
    let present ← match R with
      | some R => R.readPresent mapId k blk mapKeyId
      | none => pure (.select (st.map mapId).present k)
    pure (.iff present (.boolVal result))

/-- An access at a constant offset plus, if there is one, a variable offset. -/
def addrTerm (d : Nat) (off : Int) (varOff : Option ZBv) : ZTerm (.bv d) :=
  match varOff with
  | none => bvVal off d
  | some v => .bin .add (resize v d) (bvVal off d)

/-- The bytes of a map value that a read of it denotes. -/
def mapValBytes {w : Nat} (val : ZTerm (.bv w)) (off : Int) (varOff : Option ZBv) (size : Nat) :
    Except LowerError ZBv :=
  match varOff with
  | some v => pure (extractBytesVar val (.bin .add (resize v w) (bvVal off w)) size)
  | none =>
      if off < 0 then throw (.negativeOffset off)
      else
        let lo := off.toNat * 8
        if w ≤ lo then pure ⟨size * 8, bvVal 0 (size * 8)⟩
        else
          let len := min (lo + size * 8) w - lo
          pure ⟨size * 8, resize ⟨len, .extract lo len val⟩ (size * 8)⟩

/-- The value of a helper call; `ok` is whether the key of a redirect is there. -/
def funcRetvalTerm (r : FuncRetval Expr) (ok : Option (ZTerm .bool)) : ZBv :=
  let w := 8 * r.size
  if r.redirects then
    match ok with
    | none => ⟨w, bvVal r.fallback w⟩
    | some c => ⟨w, .ite c (bvVal 4 w) (bvVal r.fallback w)⟩
  else if r.func = 44 || r.func = 54 || r.func = 65 then
    ⟨w, .ite (.var (.adjustOk r.idx) .bool) (bvVal 0 w) (bvVal (-EINVAL) w)⟩
  else ⟨w, .var (.func r.func r.idx) (.bv w)⟩

mutual

/-- The term of a value in a state. -/
def exprToZ3 (R : Option (Reads maps)) (blk : Option Nat) (st : Z3State maps) :
    Expr → Except LowerError ZBv
  | .scalar size idx => pure ⟨8 * size, .var (.scalar idx) (.bv (8 * size))⟩
  | .joinValue blockIdx regNum values edges =>
      match R with
      | none => pure ⟨64, .var (.phi blockIdx regNum) (.bv 64)⟩
      | some R => do
          match ← phiArms R values edges with
          | [] => pure ⟨64, .var (.phi blockIdx regNum) (.bv 64)⟩
          | x :: xs => pure ⟨64, ifChain x xs⟩
  | .ingressIfindex => pure ⟨64, st.ingress⟩
  | .rxQueueIndex => pure ⟨64, st.rxIndex⟩
  | .egressIfindex => pure ⟨64, st.egress⟩
  | .pktLen .. => pure ⟨64, st.pktLen⟩
  | .funcRetval r => do
      if r.redirects then
        match r with
        | ⟨_, _, _, _, some mapId, mapKey, mapKeyId, _, _⟩ =>
            match mapKey with
            | none => pure (funcRetvalTerm r (some (.boolVal true)))
            | some k =>
                let key ← exprToZ3 R blk st k
                let ok ← containTerm R blk st mapId key mapKeyId true
                pure (funcRetvalTerm r (some ok))
        | _ => pure (funcRetvalTerm r none)
      else pure (funcRetvalTerm r none)
  | .pktVal block idx off varOff size => do
      match ← (match R with
        | some R => R.readPkt (.pktVal block idx off varOff size)
        | none => pure none) with
      | some t => pure t
      | none =>
          let vo ← optToZ3 R blk st varOff
          concatCells (selectBytes st.pkt (addrTerm PKT_ADDR_BITS off vo) size)
  | .mapVal block idx mapId mapKey mapKeyId off varOff size => do
      match ← (match R with
        | some R => R.readMap (.mapVal block idx mapId mapKey mapKeyId off varOff size)
        | none => pure none) with
      | some t => pure t
      | none =>
          match mapId with
          | none => throw .noMap
          | some mapId =>
              let key ← someToZ3 R blk st mapKey
              let val := Term.select (st.map mapId).value (resize key (keyBits maps mapId))
              let vo ← optToZ3 R blk st varOff
              mapValBytes val off vo size
  | .bssVal block idx bssKey off varOff size => do
      match ← (match R with
        | some R => R.readBss (.bssVal block idx bssKey off varOff size)
        | none => pure none) with
      | some t => pure t
      | none =>
          let vo ← optToZ3 R blk st varOff
          concatCells (selectBytes (bssOf st bssKey) (addrTerm BSS_ADDR_BITS off vo) size)
  | .rodataVal data off varOff size => do
      let vo ← optToZ3 R blk st varOff
      concatCells (selectBytes (rodataArray data) (addrTerm RODATA_ADDR_BITS off vo) size)
  | .lookupHit mapId mapKey mapKeyId => do
      let hit ← match mapId, mapKey with
        | some mapId, some k => do
            let key ← exprToZ3 R blk st k
            containTerm R blk st mapId key mapKeyId true
        | _, _ => pure (.boolVal true)
      pure ⟨8, .ite hit (bvVal 1 8) (bvVal 0 8)⟩
  | .num n size _ => pure ⟨size * 8, bvVal n (size * 8)⟩
  | .byteSeq chunks size off => do
      let cells ← chunksToZ3 R blk st chunks
      let whole ← concatCells cells
      let whole : ZBv :=
        if off = 0 then whole
        else ⟨whole.size, .bin .lshr whole.term (bvVal (off * 8) whole.size)⟩
      pure ⟨size * 8, resize whole (size * 8)⟩
  | .unary op dst opcodeS imm size alu64 => do
      let d ← someToZ3 R blk st dst
      aluUnary op opcodeS imm size alu64 d
  | .binary op dst src offset size _ => do
      let d ← someToZ3 R blk st dst
      let s ← someToZ3 R blk st src
      aluBinary op offset size d s
  | .ptr _ => throw .noEncoding
termination_by structural e => e

/-- A value that may be absent. -/
def optToZ3 (R : Option (Reads maps)) (blk : Option Nat) (st : Z3State maps) :
    Option Expr → Except LowerError (Option ZBv)
  | none => pure none
  | some e => do
      let t ← exprToZ3 R blk st e
      pure (some t)
termination_by structural e => e

/-- A value that has to be there. -/
def someToZ3 (R : Option (Reads maps)) (blk : Option Nat) (st : Z3State maps) :
    Option Expr → Except LowerError ZBv
  | none => throw .noEncoding
  | some e => exprToZ3 R blk st e
termination_by structural e => e

/-- The cells of a byte sequence; an absent slot is zero. -/
def chunksToZ3 (R : Option (Reads maps)) (blk : Option Nat) (st : Z3State maps) :
    List (Option Expr) → Except LowerError (List ZBv)
  | [] => pure []
  | none :: cs => do
      let rest ← chunksToZ3 R blk st cs
      pure (⟨64, bvVal 0 64⟩ :: rest)
  | some c :: cs => do
      let t ← exprToZ3 R blk st c
      let rest ← chunksToZ3 R blk st cs
      pure (⟨64, resize t 64⟩ :: rest)
termination_by structural e => e

/-- The arms of a join value whose guards are not known to be false. They are
lowered in the base state of the hooks. -/
def phiArms (R : Reads maps) :
    List (Option Expr) → List (List Edge) → Except LowerError (List (Guard × ZTerm (.bv 64)))
  | v :: vs, es :: ess => do
      let g := Guard.orAll (es.map R.guardOf)
      if g = .ff then phiArms R vs ess
      else
        let t ← someToZ3 (some R) none R.base v
        let rest ← phiArms R vs ess
        pure ((g, resize t 64) :: rest)
  | _, _ => pure []
termination_by structural e => e

end

end Lower

end Hornet
