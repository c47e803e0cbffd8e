import Hornet.Lib.Fold
import Hornet.Track.Encode

/-!
The terms of branch conditions and the effect of actions on the symbolic state.
-/

namespace Hornet

open Smt

variable {maps : List MapInfo}

/-- What a branch condition knows about the nullity of a pointer. -/
def ptrIsNull (p : PTR Expr) : Option Bool :=
  if p.ptrType = .PKT then some false else p.checkedNull

/-- The nullity test that a comparison with the constant zero is, when the
pointer's nullity is known. The destination operand is looked at first. -/
def nullTest (dst src : Option Expr) : Option Bool :=
  let test (p : PTR Expr) (other : Option Expr) :=
    if (other.bind Expr.num?) = some 0 then ptrIsNull p else none
  match dst.bind Expr.ptr?, src.bind Expr.ptr? with
  | some p, _ => test p src
  | none, some p => test p dst
  | none, none => none

/-- A comparison of two operands at the width the jump compares them. -/
def cmpTerm (code : JmpOp) (dst src : ZBv) (jmp32 : Bool) : Except LowerError (ZTerm .bool) :=
  let signed := code = .JSGT || code = .JSGE || code = .JSLT || code = .JSLE
  let width :=
    if jmp32 then 32
    else if signed then max (max dst.size src.size) 64 else max dst.size src.size
  let d := resize dst width
  let s := resize src width
  match code with
  | .JEQ => pure (.cmp .eq d s)
  | .JNE => pure (.not (.cmp .eq d s))
  | .JGT => pure (.cmp .ult s d)
  | .JGE => pure (.cmp .ule s d)
  | .JLT => pure (.cmp .ult d s)
  | .JLE => pure (.cmp .ule d s)
  | .JSGT => pure (.cmp .slt s d)
  | .JSGE => pure (.cmp .sle s d)
  | .JSLT => pure (.cmp .slt d s)
  | .JSLE => pure (.cmp .sle d s)
  | .JSET => pure (.not (.cmp .eq (.bin .and d s) (bvVal 0 width)))
  | code => throw (.unknownBranchCode code)

def Condition.toZ3 (R : Option (Reads maps)) (blk : Option Nat) (st : Z3State maps) :
    Condition → Except LowerError Guard
  | .cmp code dst src jmp32 => do
      let known := if code = .JEQ || code = .JNE then nullTest dst src else none
      match known with
      | some isNull => pure (.term (.boolVal (if code = .JEQ then isNull else !isNull)))
      | none =>
          let s ← someToZ3 R blk st src
          let d ← someToZ3 R blk st dst
          let t ← cmpTerm code d s jmp32
          pure (.term t)
  | .adjustHeadCheck result idx =>
      if idx < 0 then pure (if result then .tt else .ff)
      else
        let ok : ZTerm .bool := .var (.adjustOk idx) .bool
        pure (.term (if result then ok else .not ok))
  | .containMapValue mapId mapKey mapKeyId result =>
      match mapId, mapKey with
      | some mapId, some k => do
          let key ← exprToZ3 R blk st k
          let t ← containTerm R blk st mapId key mapKeyId result
          pure (.term t)
      | _, _ => pure (.term (.boolVal result))
  | .tailCallTaken _ index slot idx =>
      match slot, index with
      | some slot, some e => do
          let key ← exprToZ3 R blk st e
          pure (.term (.cmp .eq key.term (bvVal slot key.size)))
      | _, _ => pure (.term (.var (.tailOk idx) .bool))

/-- Stores the `size` low bytes of `val`, lowest first, from `base`. -/
def storeBytes {d : Nat} (arr : ZTerm (.array d (.bv 8))) (base : ZTerm (.bv d)) (size : Nat)
    (val : ZTerm (.bv (size * 8))) : ZTerm (.array d (.bv 8)) :=
  (List.range size).foldl (fun arr (i : Nat) =>
    .store arr (.bin .add base (bvVal i d)) (.extract (i * 8) 8 val)) arr

namespace Z3State

def setMap (st : Z3State maps) (mapId : Nat) (m : MapArrays maps mapId) : Z3State maps :=
  { st with map := Function.update st.map mapId m }

def setBss (st : Z3State maps) (key : String) (arr : BssArray) : Z3State maps :=
  { st with bss := Function.update st.bss key (some arr) }

end Z3State

def mapStore (st : Z3State maps) (mapId : Nat) (key : ZTerm (.bv (keyBits maps mapId)))
    (newVal : ZTerm (.bv (valBits maps mapId))) (markPresent : Bool) : Z3State maps :=
  let m := st.map mapId
  st.setMap mapId
    { present := if markPresent && isHashMap maps mapId then .store m.present key (.boolVal true)
        else m.present
      value := .store m.value key newVal }

/-- Whether an update takes effect, given whether the key is present. -/
def updateApplies (flags : Option Int) (idx : Int) (present : ZTerm .bool) : Guard :=
  match flags with
  | none => .term (.var (.updateApplies idx) .bool)
  | some flags =>
      if flags % 4 = 0 then .tt
      else if flags % 4 = 1 then .term (.not present)
      else if flags % 4 = 2 then .term present
      else .ff

section ToZ3

variable (R : Option (Reads maps)) (blk : Option Nat) (st : Z3State maps)

def mapKeyZ3 (mapId : Nat) (mapKey : Option Expr) :
    Except LowerError (ZTerm (.bv (keyBits maps mapId))) := do
  let key ← someToZ3 R blk st mapKey
  pure (resize key (keyBits maps mapId))

variable {R blk st}

theorem someToZ3_ok {e : Expr} {t : ZBv} (h : exprToZ3 R blk st e = .ok t) :
    someToZ3 R blk st (some e) = .ok t := by
  unfold someToZ3
  exact h

theorem mapKeyZ3_ok {e : Expr} {k : ZBv} (h : exprToZ3 R blk st e = .ok k) (mapId : Nat) :
    mapKeyZ3 R blk st mapId (some e) = .ok (resize k (keyBits maps mapId)) := by
  unfold mapKeyZ3
  rw [someToZ3_ok h]
  rfl

variable (R blk st)

def pktWriteToZ3 (off : Int) (varOff : Option Expr) (size : Nat) (value : Option Expr) :
    Except LowerError (Z3State maps) := do
  let vo ← optToZ3 R blk st varOff
  let val ← someToZ3 R blk st value
  pure { st with
    pkt := storeBytes st.pkt (addrTerm PKT_ADDR_BITS off vo) size (resize val (size * 8)) }

def mapWriteToZ3 (mapId : Nat) (mapKey : Option Expr) (off : Int) (size : Nat)
    (value varOff : Option Expr) : Except LowerError (Z3State maps) := do
  let key ← mapKeyZ3 R blk st mapId mapKey
  let cur := Term.select (st.map mapId).value key
  let val ← someToZ3 R blk st value
  match ← optToZ3 R blk st varOff with
  | some v =>
      let base := Term.bin .add (resize v (valBits maps mapId)) (bvVal off (valBits maps mapId))
      pure (mapStore st mapId key (spliceBytesVar cur base size val) false)
  | none =>
      if off < 0 then throw (.negativeOffset off)
      else pure (mapStore st mapId key (spliceBytes cur off.toNat size val) false)

def mapAtomicAddToZ3 (mapId : Nat) (mapKey : Option Expr) (off : Int) (size : Nat)
    (value varOff : Option Expr) : Except LowerError (Z3State maps) := do
  let key ← mapKeyZ3 R blk st mapId mapKey
  let cur := Term.select (st.map mapId).value key
  match ← optToZ3 R blk st varOff with
  | some v =>
      let base := Term.bin .add (resize v (valBits maps mapId)) (bvVal off (valBits maps mapId))
      let field := extractBytesVar cur base size
      let addend ← someToZ3 R blk st value
      let sum : ZBv := ⟨field.size, .bin .add field.term (resize addend field.size)⟩
      pure (mapStore st mapId key (spliceBytesVar cur base size sum) false)
  | none =>
      if off < 0 then throw (.negativeOffset off)
      else
        let lo := off.toNat * 8
        let hi := min ((off.toNat + size) * 8) (valBits maps mapId)
        if hi ≤ lo then throw (.negativeOffset off)
        else
          let addend ← someToZ3 R blk st value
          let sum : ZBv :=
            ⟨hi - lo, .bin .add (.extract lo (hi - lo) cur) (resize addend (hi - lo))⟩
          pure (mapStore st mapId key (spliceBytes cur off.toNat size sum) false)

def mapUpdateToZ3 (mapId : Nat) (mapKey value : Option Expr) (flags : Option Int) (idx : Int) :
    Except LowerError (Z3State maps) := do
  let key ← mapKeyZ3 R blk st mapId mapKey
  let v ← someToZ3 R blk st value
  let val := resize v (valBits maps mapId)
  let m := st.map mapId
  let present : ZTerm .bool :=
    if isArrayMap maps mapId || isProgMap maps mapId then
      .cmp .ult key (bvVal (maxEntries maps mapId) (keyBits maps mapId))
    else .select m.present key
  match updateApplies flags idx present with
  | .ff => pure st
  | .tt => pure (mapStore st mapId key val true)
  | .term ok =>
      pure (st.setMap mapId
        { present := if isHashMap maps mapId then .store m.present key (.or ok present)
            else m.present
          value := .store m.value key (.ite ok val (.select m.value key)) })

def mapDeleteToZ3 (mapId : Nat) (mapKey : Option Expr) : Except LowerError (Z3State maps) := do
  if isHashMap maps mapId then
    let key ← mapKeyZ3 R blk st mapId mapKey
    let m := st.map mapId
    pure (st.setMap mapId { m with present := .store m.present key (.boolVal false) })
  else pure st

def bssWriteToZ3 (key : String) (off : Int) (size : Nat) (value varOff : Option Expr) :
    Except LowerError (Z3State maps) := do
  let vo ← optToZ3 R blk st varOff
  let val ← someToZ3 R blk st value
  let n := max size 1
  pure (st.setBss key
    (storeBytes (bssOf st (some key)) (addrTerm BSS_ADDR_BITS off vo) n (resize val (n * 8))))

/-- The old value is read again, from the state the addition finds. -/
def bssAtomicAddToZ3 (key : String) (off : Int) (size : Nat) (value varOff : Option Expr) :
    Except LowerError (Z3State maps) :=
  -- the read has the default block and index, so no hook knows it
  let old : Expr := .bssVal 0 (-1) (some key) off varOff (max size 1)
  let sum : Expr := .binary .ADD (some old) value 0 (if max size 1 = 4 then .b4 else .b8) (-1)
  bssWriteToZ3 R blk st key off size (some sum) varOff

/-- The frame shortened by `delta`, when the call with index `idx` succeeds. -/
def adjustLen (delta : Int) (idx : Int) : Z3State maps :=
  let shifted := Term.bin .sub st.pktLen (bvVal delta 64)
  { st with
    pktLen := if idx < 0 then shifted else .ite (.var (.adjustOk idx) .bool) shifted st.pktLen }

def ctxWriteToZ3 (value : Option Expr) : Except LowerError (Z3State maps) := do
  let v ← someToZ3 R blk st value
  pure { st with rxIndex := resize v 64 }

/-- The state after an action. -/
def Event.toZ3 (e : Event) : Except LowerError (Z3State maps) :=
  match e.action with
  | .pktWrite _ off varOff size value => pktWriteToZ3 R blk st off varOff size value
  | .mapWrite (some mapId) mapKey off size value varOff =>
      mapWriteToZ3 R blk st mapId mapKey off size value varOff
  | .mapAtomicAdd (some mapId) mapKey off size value varOff _ =>
      mapAtomicAddToZ3 R blk st mapId mapKey off size value varOff
  | .mapUpdate (some mapId) mapKey value flags _ =>
      mapUpdateToZ3 R blk st mapId mapKey value flags e.idx
  | .mapDelete (some mapId) mapKey => mapDeleteToZ3 R blk st mapId mapKey
  | .bssWrite (some key) off size value varOff => bssWriteToZ3 R blk st key off size value varOff
  | .bssAtomicAdd (some key) off size value varOff _ =>
      bssAtomicAddToZ3 R blk st key off size value varOff
  | .adjustHead delta => pure (adjustLen st delta e.idx)
  | .adjustTail delta => pure (adjustLen st (-delta) e.idx)
  | .ctxWrite value => ctxWriteToZ3 R blk st value
  | _ => pure st

end ToZ3

/-- The `.bss` symbol that an action stores to. -/
def Action.bssKey : Action → Option String
  | .bssWrite key .. | .bssAtomicAdd key .. => key
  | _ => none

/-- The states that an action can lead to: it changes one component, and of the `.bss`
symbols only the one it stores to. -/
inductive Changed (st : Z3State maps) (bssKey : Option String) : Z3State maps → Prop
  | same : Changed st bssKey st
  | pkt (arr : PktArray) : Changed st bssKey { st with pkt := arr }
  | map (mapId : Nat) (a : MapArrays maps mapId) : Changed st bssKey (st.setMap mapId a)
  | bss (key : String) (arr : BssArray) (h : bssKey = some key) : Changed st bssKey (st.setBss key arr)
  | pktLen (t : ZTerm (.bv 64)) : Changed st bssKey { st with pktLen := t }
  | rxIndex (t : ZTerm (.bv 64)) : Changed st bssKey { st with rxIndex := t }

section Changes

open Lib

variable {R : Option (Reads maps)} {blk : Option Nat} {st st' : Z3State maps}

theorem mapWrite_changed {mapId : Nat} {mapKey : Option Expr} {off : Int} {size : Nat}
    {value varOff : Option Expr} {key : Option String}
    (h : mapWriteToZ3 R blk st mapId mapKey off size value varOff = .ok st') :
    Changed st key st' := by
  obtain ⟨_, -, h⟩ := bind_eq_ok.mp h
  obtain ⟨_, -, h⟩ := bind_eq_ok.mp h
  obtain ⟨vo, -, h⟩ := bind_eq_ok.mp h
  split at h
  · cases h
    exact .map _ _
  · split at h
    · cases h
    · cases h
      exact .map _ _

theorem mapAtomicAdd_changed {mapId : Nat} {mapKey : Option Expr} {off : Int} {size : Nat}
    {value varOff : Option Expr} {key : Option String}
    (h : mapAtomicAddToZ3 R blk st mapId mapKey off size value varOff = .ok st') :
    Changed st key st' := by
  obtain ⟨_, -, h⟩ := bind_eq_ok.mp h
  obtain ⟨vo, -, h⟩ := bind_eq_ok.mp h
  split at h
  · obtain ⟨_, -, h⟩ := bind_eq_ok.mp h
    cases h
    exact .map _ _
  · split at h
    · cases h
    · dsimp only at h
      split at h
      · cases h
      · obtain ⟨_, -, h⟩ := bind_eq_ok.mp h
        cases h
        exact .map _ _

theorem mapUpdate_changed {mapId : Nat} {mapKey value : Option Expr} {flags : Option Int}
    {idx : Int} {key : Option String}
    (h : mapUpdateToZ3 R blk st mapId mapKey value flags idx = .ok st') : Changed st key st' := by
  obtain ⟨_, -, h⟩ := bind_eq_ok.mp h
  obtain ⟨_, -, h⟩ := bind_eq_ok.mp h
  dsimp only at h
  split at h
  · cases h
    exact .same
  · cases h
    exact .map _ _
  · cases h
    exact .map _ _

theorem mapDelete_changed {mapId : Nat} {mapKey : Option Expr} {key : Option String}
    (h : mapDeleteToZ3 R blk st mapId mapKey = .ok st') : Changed st key st' := by
  unfold mapDeleteToZ3 at h
  split at h
  · obtain ⟨_, -, h⟩ := bind_eq_ok.mp h
    cases h
    exact .map _ _
  · cases h
    exact .same

theorem bssWrite_changed {key : String} {off : Int} {size : Nat} {value varOff : Option Expr}
    (h : bssWriteToZ3 R blk st key off size value varOff = .ok st') :
    Changed st (some key) st' := by
  obtain ⟨_, -, h⟩ := bind_eq_ok.mp h
  obtain ⟨_, -, h⟩ := bind_eq_ok.mp h
  cases h
  exact .bss _ _ rfl

theorem event_changed {e : Event} (h : e.toZ3 R blk st = .ok st') :
    Changed st e.action.bssKey st' := by
  obtain ⟨block, idx, action⟩ := e
  unfold Event.toZ3 at h
  dsimp only at h ⊢
  split at h
  · obtain ⟨_, -, h⟩ := bind_eq_ok.mp h
    obtain ⟨_, -, h⟩ := bind_eq_ok.mp h
    cases h
    exact .pkt _
  · exact mapWrite_changed h
  · exact mapAtomicAdd_changed h
  · exact mapUpdate_changed h
  · exact mapDelete_changed h
  · exact bssWrite_changed h
  · exact bssWrite_changed h
  · cases h
    exact .pktLen _
  · cases h
    exact .pktLen _
  · obtain ⟨_, -, h⟩ := bind_eq_ok.mp h
    cases h
    exact .rxIndex _
  · cases h
    exact .same

end Changes

end Hornet
