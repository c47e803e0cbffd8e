import Hornet.Lib.Reject
import Hornet.Verify.SpecNotes

/-!
What the parser of specifications raises. It rejects an atom with an error of its own, but
conversions and look-ups of Python that it does not guard raise errors too. The readers
below are those of the parser, in the order in which they look at an atom.
-/

namespace Hornet

open Lib

/-- The kinds of atoms, by the member that the parser looks for first. -/
inductive AtomKind where
  | helper (idx : Json)
  | ret (value : Json)
  | read (spec : Json)
  | bss (sym : Json)
  | map (ref : Json)
  | len (bounds : Json)
  | ctx (target : Json)
  | packet

def atomKind (a : List (String × Json)) : AtomKind :=
  (((Json.get a "idx").map AtomKind.helper).or <|
    ((Json.get a "ret").map AtomKind.ret).or <|
    ((Json.get a "read").map AtomKind.read).or <|
    ((Json.get a "bss").map AtomKind.bss).or <|
    ((Json.get a "map").map AtomKind.map).or <|
    ((Json.get a "pkt_len").map AtomKind.len).or <|
    (Json.get a "ctx").map AtomKind.ctx).getD .packet

/-- A value that may be the key of a dictionary. -/
def hashable : Json → Bool
  | .arr _ | .obj _ => false
  | _ => true

namespace Raising

/-! ## Values -/

def parseInt : Json → Except Raised Int
  | .int n => pure n
  | .str s => orEscape (Hornet.parseInt (.str s))
  | _ => throw .rejected

/-- `int(x)` -/
def toInt (v : Json) : Except Raised Int := orEscape v.toInt

/-- The parts of an address. -/
def parseParts (read : List Char → Option Int) (sep : Char) (v : List Char) (size : Int) :
    Except Raised (List Int) := do
  let parts ← orEscape ((v.splitOn sep).mapM read)
  orReject (ofSize size parts)

def parseStrBytes (v : List Char) (size : Int) : Except Raised (List Int) :=
  if v.take 2 = ['0', 'x'] ∨ v.take 2 = ['0', 'X'] then
    orEscape ((PyStr.int16 v).bind (toBytesBig · size))
  else if v.contains '.' then parseParts PyStr.int '.' v size
  else if v.contains ':' then parseParts PyStr.int16 ':' v size
  else orEscape ((PyStr.int v).bind (toBytesBig · size))

def parseValBytes (size : Int) : Json → Except Raised (List Int)
  | .int n => orEscape (toBytesBig n size)
  | .arr items =>
      if (items.length : Int) = size then orEscape (items.mapM fun b => b.toInt.map (· % 256))
      else throw .rejected
  | .str s => parseStrBytes (PyStr.strip s.toList) size
  | _ => throw .rejected

/-- `bytes(b)` takes no item that is not a byte. -/
def parseMultibyteInt (size : Int) (value : Json) : Except Raised Nat := do
  let bytes ← parseValBytes size value
  if bytes.all fun b => 0 ≤ b && b < 256 then pure (intOfBytes bytes) else throw .escaped

/-! ## Atoms -/

section Atoms

variable (maps : Option (List MapDef)) (calls : Option (Dict Int CallRecord))
  (blocks : Option (List Block)) (block : Option Int)

/-- Looking a value up in a dictionary. -/
def lookupKey (v : Json) : Except Raised Unit := if hashable v then pure () else throw .escaped

def eqOp (a : List (String × Json)) : Except Raised EqOp :=
  (Json.get a "op").elim (pure .eq) fun op => orReject (parseEqOp op)

def checkHelper (call : CallRecord) (helper : Json) : Except Raised Unit := do
  lookupKey helper
  orReject (Hornet.checkHelper call helper)

def parseHelperAtom (idx : Json) (a : List (String × Json)) : Except Raised SpecAtom := do
  let calls ← orReject calls
  let idx ← parseInt idx
  let call ← orReject (calls.get? idx)
  if call.ret = .transfer then throw .rejected
  else do
    (Json.get a "helper").elim (pure ()) (checkHelper call)
    if call.ret = .scalar then do
      let op ← orReject (Json.get a "op")
      let value ← orReject (Json.get a "value")
      let op ← orReject (parseRelOp op)
      let value ← parseInt value
      pure (.helperScalar call.imm idx call.retSize op value call.retval)
    else do
      let result ← orReject ((Json.get a "returns").bind parseReturns)
      pure (.helperNull call.imm idx result call.mapId call.mapKey call.mapKeyId)

def parseRetAtom (ret : Json) (a : List (String × Json)) : Except Raised SpecAtom :=
  if block.isSome then throw .rejected
  else do
    let op ← (Json.get a "op").elim (pure .eq) fun op => orReject (parseRelOp op)
    let value ← parseInt ret
    pure (.ret op value)

def parseBssAtom (op : EqOp) (bss : Json) (a : List (String × Json)) : Except Raised SpecAtom := do
  let sym ← orReject bss.str?
  let size ← orReject (Json.get a "size")
  let value ← orReject (Json.get a "value")
  let size ← toInt size
  if size < 1 then throw .rejected
  else do
    let offset ← (Json.get a "offset").elim (pure 0) toInt
    let value ← parseMultibyteInt size value
    pure (.bss sym offset size value op)

/-- A key that is not there is an error of the dictionary. -/
def parseMapAtom (ref : Json) (a : List (String × Json)) : Except Raised SpecAtom := do
  let m ← orReject (resolveMap maps ref)
  let present := given a "contains"
  let value := given a "value"
  if present.isNone && value.isNone then throw .rejected
  else if value.isSome && present.any Json.isFalse then throw .rejected
  else do
    let key ← orEscape (Json.get a "key")
    let key ← parseMultibyteInt m.keySize key
    let value ← value.elim (pure none) fun v => do
      let n ← parseMultibyteInt m.valueSize v
      pure (some n)
    pure (.map m.id key (present.map Json.truthy) value m.keySize m.valueSize)

/-- What is no object has no `get`. -/
def parseLenAtom (bounds : Json) : Except Raised SpecAtom := do
  let r ← orEscape (lenBounds bounds)
  pure (.len r.1 r.2)

def ctxTarget (ctx : Json) : Except Raised CtxTarget := do
  lookupKey ctx
  orReject (Hornet.ctxTarget ctx)

def parseCtxAtom (ctx : Json) (a : List (String × Json)) : Except Raised SpecAtom := do
  let target ← ctxTarget ctx
  let value ← orEscape (Json.get a "value")
  let value ← parseInt value
  pure (.scalar target value)

def fieldPlace (field : Json) : Except Raised (Int × Int) := do
  lookupKey field
  orReject (field.str?.bind (PROTOCOL_FIELDS.lookup ·))

def bytesPlace (a : List (String × Json)) : Except Raised (Int × Int) := do
  let offset ← orReject (Json.get a "offset")
  let size ← orReject (Json.get a "size")
  let offset ← toInt offset
  let size ← toInt size
  pure (offset, size)

def parsePktAtom (op : EqOp) (a : List (String × Json)) : Except Raised SpecAtom := do
  let (offset, size) ← (Json.get a "field").elim (bytesPlace a) fieldPlace
  let value ← orReject (Json.get a "value")
  let data ← parseValBytes size value
  pure (.pkt offset size data op)

/-- The map or the packet, and the offset in it. -/
def readPlace (size : Int) (spec : List (String × Json)) : Except Raised ReadPlace :=
  match Json.get spec "map" with
  | some ref => do
      let m ← orReject (resolveMap maps ref)
      let offset ← (Json.get spec "offset").elim (pure 0) toInt
      pure { region := .MAP, offset := offset, size := size, mapId := some m.id }
  | none => do
      let offset ← orReject (Json.get spec "offset")
      let offset ← toInt offset
      pure { region := .PKT, offset := offset, size := size, mapId := none }

def obj? : Json → Option (List (String × Json))
  | .obj es => some es
  | _ => none

def parseReadAtom (read : Json) (a : List (String × Json)) : Except Raised SpecAtom := do
  let sources ← orReject (readSources blocks block)
  let spec ← orReject (obj? read)
  let op ← eqOp a
  let value ← orReject (Json.get a "value")
  let size ← orReject (Json.get spec "size")
  let size ← toInt size
  let place ← readPlace maps size spec
  let parts ← orReject (assemble sources place.region place.offset place.size place.mapId)
  let target ← parseMultibyteInt place.size value
  pure (.read parts op target place.size place.region place.offset place.mapId)

def parseAtom (a : List (String × Json)) : Except Raised SpecAtom :=
  match atomKind a with
  | .helper idx => parseHelperAtom calls idx a
  | .ret value => parseRetAtom block value a
  | .read spec => parseReadAtom maps blocks block spec a
  | .bss sym => do
      let op ← eqOp a
      parseBssAtom op sym a
  | .map ref => do
      let _ ← eqOp a
      parseMapAtom maps ref a
  | .len bounds => do
      let _ ← eqOp a
      parseLenAtom bounds
  | .ctx target => do
      let _ ← eqOp a
      parseCtxAtom target a
  | .packet => do
      let op ← eqOp a
      parsePktAtom op a

end Atoms

/-! ## The accepted atoms -/

/-- Whether two members are there is asked before either of them is read. -/
theorem bind_both {α β γ δ ε : Type} (x : Option α) (y : Option β) (f : α → Option γ)
    (g : β → Option δ) (k : γ → δ → Option ε) :
    (x.bind fun a => y.bind fun b => (f a).bind fun c => (g b).bind (k c)) =
      (x.bind f).bind fun c => (y.bind g).bind (k c) := by
  cases x with
  | none => rfl
  | some a =>
      cases y with
      | none => exact (Option.bind_fun_none (f a)).symm
      | some b => rfl

section Accepted

variable (size : Int) (v : Json) (a : List (String × Json))

theorem toOption_parseInt : (parseInt v).toOption = Hornet.parseInt v := by
  cases v with
  | str s => exact toOption_orEscape _
  | _ => rfl

theorem toOption_toInt : (toInt v).toOption = v.toInt := toOption_orEscape _

theorem toOption_parseParts (read : List Char → Option Int) (sep : Char) (cs : List Char) :
    (parseParts read sep cs size).toOption = ((cs.splitOn sep).mapM read).bind (ofSize size) := by
  unfold parseParts
  simp only [toOption_bind, toOption_orEscape, toOption_orReject]

theorem toOption_parseStrBytes (cs : List Char) :
    (parseStrBytes cs size).toOption = Hornet.parseStrBytes cs size := by
  unfold parseStrBytes Hornet.parseStrBytes
  simp only [toOption_ite, toOption_orEscape, toOption_parseParts]

theorem toOption_parseValBytes : (parseValBytes size v).toOption = Hornet.parseValBytes size v := by
  cases v with
  | int n => exact toOption_orEscape _
  | arr items =>
      unfold parseValBytes Hornet.parseValBytes
      dsimp only
      rw [toOption_ite, toOption_orEscape, toOption_throw]
  | str s => exact toOption_parseStrBytes size _
  | _ => rfl

theorem toOption_parseMultibyteInt :
    (parseMultibyteInt size v).toOption = Hornet.parseMultibyteInt size v := by
  unfold parseMultibyteInt Hornet.parseMultibyteInt
  simp only [toOption_bind, toOption_ite, toOption_parseValBytes, toOption_pure, toOption_throw]
  rfl

variable (maps : Option (List MapDef)) (calls : Option (Dict Int CallRecord))
  (blocks : Option (List Block)) (block : Option Int)

theorem toOption_eqOp : (eqOp a).toOption = (Json.get a "op").elim (some .eq) parseEqOp := by
  unfold eqOp
  simp only [toOption_elim, toOption_pure, toOption_orReject]

/-- A key that cannot be looked up is none of the dictionary. -/
theorem toOption_lookup {α : Type} {f : Json → Option α}
    (hf : ∀ v, hashable v = false → f v = none) :
    (lookupKey v >>= fun _ => orReject (f v)).toOption = f v := by
  unfold lookupKey
  cases hkey : hashable v with
  | false =>
      rw [hf v hkey]
      rfl
  | true => exact toOption_orReject _

theorem str?_of_unhashable (hkey : hashable v = false) : v.str? = none := by
  cases v with
  | arr items => rfl
  | obj es => rfl
  | _ => cases hkey

theorem toOption_checkHelper (call : CallRecord) :
    (checkHelper call v).toOption = Hornet.checkHelper call v := by
  apply toOption_lookup
  intro helper hkey
  unfold Hornet.checkHelper
  rw [str?_of_unhashable helper hkey]
  rfl

theorem toOption_fieldPlace :
    (fieldPlace v).toOption = v.str?.bind (PROTOCOL_FIELDS.lookup ·) := by
  apply toOption_lookup (f := fun field => field.str?.bind (PROTOCOL_FIELDS.lookup ·))
  intro field hkey
  rw [str?_of_unhashable field hkey]
  rfl

theorem toOption_ctxTarget : (ctxTarget v).toOption = Hornet.ctxTarget v := by
  apply toOption_lookup
  intro name hkey
  unfold Hornet.ctxTarget
  rw [str?_of_unhashable name hkey]

variable {a v}

theorem toOption_parseHelperAtom (h : Json.get a "idx" = some v) :
    (parseHelperAtom calls v a).toOption = Hornet.parseHelperAtom calls a := by
  unfold parseHelperAtom Hornet.parseHelperAtom
  simp only [toOption_bind, toOption_orReject, toOption_parseInt, h, Option.bind_eq_bind,
    Option.bind_some]
  apply Option.bind_congr
  intro calls _
  apply Option.bind_congr
  intro idx _
  apply Option.bind_congr
  intro call _
  cases hret : call.ret with
  | transfer =>
      simp only [reduceCtorEq, if_true, toOption_throw]
      cases Json.get a "helper" with
      | none => rfl
      | some helper =>
          rw [Option.elim_some]
          cases Hornet.checkHelper call helper <;> rfl
  | scalar =>
      rw [if_neg (by decide), if_pos rfl]
      simp only [toOption_bind, toOption_elim, toOption_pure, toOption_orReject,
        toOption_parseInt, toOption_checkHelper, bind_both]
      rfl
  | pointer =>
      rw [if_neg (by decide), if_neg (by decide)]
      simp only [toOption_bind, toOption_elim, toOption_pure, toOption_orReject,
        toOption_checkHelper]
      rfl

theorem toOption_parseRetAtom (h : Json.get a "ret" = some v) :
    (parseRetAtom block v a).toOption = Hornet.parseRetAtom block a := by
  unfold parseRetAtom Hornet.parseRetAtom
  simp only [toOption_ite, toOption_bind, toOption_elim, toOption_orReject, toOption_pure,
    toOption_throw, toOption_parseInt, h]
  rfl

theorem toOption_parseBssAtom (op : EqOp) (h : Json.get a "bss" = some v) :
    (parseBssAtom op v a).toOption = Hornet.parseBssAtom op a := by
  unfold parseBssAtom Hornet.parseBssAtom
  simp only [toOption_bind, toOption_ite, toOption_elim, toOption_orReject, toOption_pure,
    toOption_throw, toOption_toInt, toOption_parseMultibyteInt, h]
  apply Option.bind_congr
  intro sym _
  cases Json.get a "size" with
  | none => rfl
  | some size =>
      cases Json.get a "value" with
      | none =>
          -- this reader gives up before the size is read, the other one after it
          simp only [Option.bind_eq_bind, Option.bind_some, Option.bind_none, Option.bind_fun_none]
      | some value =>
          simp only [Option.bind_eq_bind, Option.bind_some]
          apply Option.bind_congr
          intro n _
          split
          · simp only [Option.bind_fun_none]
          · rfl

theorem toOption_parseMapAtom (h : Json.get a "map" = some v) :
    (parseMapAtom maps v a).toOption = Hornet.parseMapAtom maps a := by
  unfold parseMapAtom Hornet.parseMapAtom mapAtomParts
  simp only [toOption_bind, toOption_ite, toOption_elim, toOption_orReject, toOption_orEscape,
    toOption_pure, toOption_throw, toOption_parseMultibyteInt, h, Option.bind_eq_bind,
    Option.bind_some, Option.map_bind]
  apply Option.bind_congr
  intro m _
  dsimp only [Function.comp]
  split
  · rfl
  · split
    · rfl
    · cases Json.get a "key" with
      | none => rfl
      | some key =>
          cases given a "value" with
          | none =>
              show (Hornet.parseMultibyteInt m.keySize key).bind _ =
                Option.map _ ((Hornet.parseMultibyteInt m.keySize key).bind _)
              cases Hornet.parseMultibyteInt m.keySize key <;> rfl
          | some value =>
              show (Hornet.parseMultibyteInt m.keySize key).bind _ =
                Option.map _ ((Hornet.parseMultibyteInt m.keySize key).bind _)
              cases Hornet.parseMultibyteInt m.keySize key with
              | none => rfl
              | some k =>
                  show ((Hornet.parseMultibyteInt m.valueSize value).bind _).bind _ =
                    Option.map _ (((Hornet.parseMultibyteInt m.valueSize value).map some).bind _)
                  cases Hornet.parseMultibyteInt m.valueSize value <;> rfl

theorem toOption_parseLenAtom (h : Json.get a "pkt_len" = some v) :
    (parseLenAtom v).toOption = Hornet.parseLenAtom a := by
  unfold parseLenAtom Hornet.parseLenAtom
  simp only [toOption_bind, toOption_orEscape, toOption_pure, h]
  exact Option.map_eq_bind.symm

theorem toOption_parseCtxAtom (h : Json.get a "ctx" = some v) :
    (parseCtxAtom v a).toOption = Hornet.parseCtxAtom a := by
  unfold parseCtxAtom Hornet.parseCtxAtom
  simp only [toOption_bind, toOption_orEscape, toOption_pure, toOption_parseInt,
    toOption_ctxTarget, h]
  cases Json.get a "value" <;> rfl

theorem toOption_parsePktAtom (op : EqOp) :
    (parsePktAtom op a).toOption = Hornet.parsePktAtom op a := by
  unfold parsePktAtom Hornet.parsePktAtom pktPlace bytesPlace
  simp only [toOption_bind, toOption_elim, toOption_orReject, toOption_pure, toOption_toInt,
    toOption_parseValBytes, toOption_fieldPlace, bind_both]
  cases Json.get a "value" <;> rfl

theorem toOption_readPlace (spec : List (String × Json)) :
    Hornet.readPlace maps (.obj spec) = ((Json.get spec "size").bind Json.toInt).bind fun size =>
      (readPlace maps size spec).toOption := by
  unfold Hornet.readPlace readPlace
  apply Option.bind_congr
  intro size _
  cases Json.get spec "map" with
  | none =>
      simp only [toOption_bind, toOption_orReject, toOption_toInt, toOption_pure]
      cases Json.get spec "offset" <;> rfl
  | some ref =>
      simp only [toOption_bind, toOption_orReject, toOption_elim, toOption_toInt, toOption_pure]
      rfl

theorem toOption_parseReadAtom (h : Json.get a "read" = some v) :
    (parseReadAtom maps blocks block v a).toOption =
      Hornet.parseReadAtom maps blocks block a := by
  unfold parseReadAtom Hornet.parseReadAtom
  simp only [toOption_bind, toOption_orReject, toOption_pure, toOption_eqOp, toOption_toInt,
    toOption_parseMultibyteInt, h]
  apply Option.bind_congr
  intro sources _
  cases v with
  | obj spec =>
      show ((Json.get a "op").elim (some EqOp.eq) parseEqOp).bind _ = _
      apply Option.bind_congr
      intro op _
      rw [Option.bind_some, toOption_readPlace]
      cases Json.get spec "size" with
      | none => cases Json.get a "value" <;> rfl
      | some size =>
          cases Json.get a "value" with
          | none =>
              simp only [Option.bind_eq_bind, Option.bind_none, Option.bind_fun_none]
          | some value => exact (Option.bind_assoc _ _ _).symm
  | _ => exact (Option.bind_fun_none _).symm

/-- The atoms that are accepted are those of the reader without errors. -/
theorem toOption_parseAtom :
    (parseAtom maps calls blocks block a).toOption =
      Hornet.parseAtom maps calls blocks block a := by
  unfold parseAtom atomKind Hornet.parseAtom hasKey
  cases hidx : Json.get a "idx" with
  | some idx => exact toOption_parseHelperAtom calls hidx
  | none =>
  cases hret : Json.get a "ret" with
  | some ret => exact toOption_parseRetAtom block hret
  | none =>
  cases hread : Json.get a "read" with
  | some read => exact toOption_parseReadAtom maps blocks block hread
  | none =>
  have hop := toOption_eqOp a
  cases hbss : Json.get a "bss" with
  | some bss =>
      show (eqOp a >>= fun op => parseBssAtom op bss a).toOption = _
      simp only [toOption_bind, hop, toOption_parseBssAtom _ hbss]
      rfl
  | none =>
  cases hmap : Json.get a "map" with
  | some ref =>
      show (eqOp a >>= fun _ => parseMapAtom maps ref a).toOption = _
      simp only [toOption_bind, hop, toOption_parseMapAtom maps hmap]
      rfl
  | none =>
  cases hlen : Json.get a "pkt_len" with
  | some bounds =>
      show (eqOp a >>= fun _ => parseLenAtom bounds).toOption = _
      simp only [toOption_bind, hop, toOption_parseLenAtom hlen]
      rfl
  | none =>
  cases hctx : Json.get a "ctx" with
  | some target =>
      show (eqOp a >>= fun _ => parseCtxAtom target a).toOption = _
      simp only [toOption_bind, hop, toOption_parseCtxAtom hctx]
      rfl
  | none =>
      show (eqOp a >>= fun op => parsePktAtom op a).toOption = _
      simp only [toOption_bind, hop, toOption_parsePktAtom]
      rfl

end Accepted

end Raising

end Hornet
