import Hornet.Lib.ByteMap
import Hornet.Lib.Fold
import Hornet.Track.MemoryStep

/-!
The actions on hash maps against maps of byte arrays: what an action asks for under a
model, and that the encoding does what is asked, action after action.
-/

namespace Hornet

open Smt Lib

/-- The bytes of a value of a map. -/
def valBytes (maps : List MapInfo) (mapId : Nat) : Nat :=
  max (((maps[mapId]?).map (·.valueSize)).getD 0) 1

/-- The contents of every map. -/
abbrev ByteMaps (maps : List MapInfo) :=
  (mapId : Nat) → ByteMap (BitVec (keyBits maps mapId)) (valBytes maps mapId)

/-- What is asked of a map. -/
inductive MapRequest (maps : List MapInfo) where
  | write (mapId : Nat) (key : BitVec (keyBits maps mapId)) (off : Nat) {size : Nat}
      (new : Bytes size)
  | atomicAdd (mapId : Nat) (key : BitVec (keyBits maps mapId)) (off : Nat) {size : Nat}
      (addend : Bytes size)
  | update (mapId : Nat) (key : BitVec (keyBits maps mapId)) (value : Bytes (valBytes maps mapId))
      (flag : UpdateFlag)
  | delete (mapId : Nat) (key : BitVec (keyBits maps mapId))

/-- The maps after a request: those that it does not name are as before. -/
def MapRequest.step {maps : List MapInfo} (c : ByteMaps maps) : MapRequest maps → ByteMaps maps
  | .write mapId key off new => Function.update c mapId ((c mapId).write key off new)
  | .atomicAdd mapId key off addend => Function.update c mapId ((c mapId).atomicAdd key off addend)
  | .update mapId key value flag => Function.update c mapId ((c mapId).update key value flag)
  | .delete mapId key => Function.update c mapId ((c mapId).delete key)

/-- `BPF_ANY`, `BPF_NOEXIST` and `BPF_EXIST`. -/
def flagCode : UpdateFlag → Int
  | .any => 0
  | .noExist => 1
  | .exist => 2

/-- An action on a map at a constant offset. -/
inductive MapAction where
  | write (key : Option Expr) (off size : Nat) (value : Option Expr)
  | atomicAdd (key : Option Expr) (off size : Nat) (value old : Option Expr)
  | update (key value : Option Expr) (flag : UpdateFlag) (size : Nat)
  | delete (key : Option Expr)

namespace MapAction

/-- An access lies inside a value of `n` bytes. -/
def Inside (n : Nat) : MapAction → Prop
  | .write _ off size _ => 0 < size ∧ off + size ≤ n
  | .atomicAdd _ off size _ _ => 0 < size ∧ off + size ≤ n
  | _ => True

def action (mapId : Nat) : MapAction → Action
  | .write key off size value => .mapWrite (some mapId) key off size value none
  | .atomicAdd key off size value old => .mapAtomicAdd (some mapId) key off size value none old
  | .update key value flag size => .mapUpdate (some mapId) key value (some (flagCode flag)) size
  | .delete key => .mapDelete (some mapId) key

end MapAction

/-- An action on a map of the hash family. -/
structure MapEvent (maps : List MapInfo) where
  block : Nat
  idx : Int
  mapId : Nat
  action : MapAction
  hash : isHashMap maps mapId = true
  inside : action.Inside (valBytes maps mapId)

def MapEvent.event {maps : List MapInfo} (e : MapEvent maps) : Event :=
  ⟨e.block, e.idx, e.action.action e.mapId⟩

section Requests

variable {maps : List MapInfo} (R : Option (Reads maps)) (blk : Option Nat) (m : ZModel)

/-- The request of an action: its operands as they are in the state it finds. -/
def MapAction.request (st : Z3State maps) (mapId : Nat) :
    MapAction → Except LowerError (MapRequest maps)
  | .write key off size value => do
      let k ← someToZ3 R blk st key
      let v ← someToZ3 R blk st value
      pure (.write mapId (BitVec.ofNat _ (k.toNat m)) off (Bytes.ofNat size (v.toNat m)))
  | .atomicAdd key off size value _ => do
      let k ← someToZ3 R blk st key
      let v ← someToZ3 R blk st value
      pure (.atomicAdd mapId (BitVec.ofNat _ (k.toNat m)) off (Bytes.ofNat size (v.toNat m)))
  | .update key value flag _ => do
      let k ← someToZ3 R blk st key
      let v ← someToZ3 R blk st value
      pure (.update mapId (BitVec.ofNat _ (k.toNat m)) (Bytes.ofNat _ (v.toNat m)) flag)
  | .delete key => do
      let k ← someToZ3 R blk st key
      pure (.delete mapId (BitVec.ofNat _ (k.toNat m)))

def MapEvent.request (st : Z3State maps) (e : MapEvent maps) : Except LowerError (MapRequest maps) :=
  e.action.request R blk m st e.mapId

/-- The state after a sequence of actions. -/
def runMapEvents (st : Z3State maps) (es : List (MapEvent maps)) : Except LowerError (Z3State maps) :=
  es.foldlM (fun st e => e.event.toZ3 R blk st) st

/-- The requests of a sequence of actions, each in the state that the actions before it
leave. -/
inductive Requests : Z3State maps → List (MapEvent maps) → List (MapRequest maps) → Prop
  | nil (st : Z3State maps) : Requests st [] []
  | cons {st st' : Z3State maps} {e : MapEvent maps} {es : List (MapEvent maps)}
      {r : MapRequest maps} {rs : List (MapRequest maps)} (hr : e.request R blk m st = .ok r)
      (hst : e.event.toZ3 R blk st = .ok st') (h : Requests st' es rs) :
      Requests st (e :: es) (r :: rs)

end Requests

section Abstraction

variable {maps : List MapInfo} (m : ZModel) {R : Option (Reads maps)} {blk : Option Nat}
  {st : Z3State maps} {mapId : Nat}

/-- The map that the two arrays are under a model. -/
def MapArrays.byteMap (a : MapArrays maps mapId) :
    ByteMap (BitVec (keyBits maps mapId)) (valBytes maps mapId) where
  present := a.present.eval m
  value k := Bytes.ofWord (n := valBytes maps mapId) (a.value.eval m k)

def byteMaps (st : Z3State maps) : ByteMaps maps := fun mapId => (st.map mapId).byteMap m

theorem byteMaps_setMap (st : Z3State maps) (a : MapArrays maps mapId) :
    byteMaps m (st.setMap mapId a) = Function.update (byteMaps m st) mapId (a.byteMap m) :=
  funext fun id => Function.apply_update (fun _ a => MapArrays.byteMap m a) st.map mapId a id

/-- A value stored at a key. -/
theorem byteMap_store (present : ZTerm (.array (keyBits maps mapId) .bool))
    (a : MapArrays maps mapId) (key : ZTerm (.bv (keyBits maps mapId)))
    (new : ZTerm (.bv (valBits maps mapId))) :
    (⟨present, .store a.value key new⟩ : MapArrays maps mapId).byteMap m =
      ({ a.byteMap m with present := present.eval m } : ByteMap _ _).setValue (key.eval m)
        (Bytes.ofWord (n := valBytes maps mapId) (new.eval m)) := by
  have hvalue : (⟨present, .store a.value key new⟩ : MapArrays maps mapId).byteMap m =
      ⟨present.eval m, fun k => Bytes.ofWord (n := valBytes maps mapId)
        (if k = key.eval m then new.eval m else a.value.eval m k)⟩ := rfl
  rw [hvalue, ByteMap.setValue, ByteMap.mk.injEq]
  refine ⟨rfl, ?_⟩
  funext k
  by_cases hk : k = key.eval m
  · subst hk
    simp
  · simp [hk, MapArrays.byteMap]

theorem byteMaps_mapStore (st : Z3State maps) (key : ZTerm (.bv (keyBits maps mapId)))
    (new : ZTerm (.bv (valBits maps mapId))) :
    byteMaps m (mapStore st mapId key new false) =
      Function.update (byteMaps m st) mapId ((byteMaps m st mapId).setValue (key.eval m)
        (Bytes.ofWord (n := valBytes maps mapId) (new.eval m))) := by
  unfold mapStore
  simp only [Bool.false_and, Bool.false_eq_true, if_false]
  rw [byteMaps_setMap, byteMap_store]
  rfl

/-- Presence stored at a key, with the value of the key. -/
theorem byteMap_storePresent (a : MapArrays maps mapId) (key : ZTerm (.bv (keyBits maps mapId)))
    (present : ZTerm .bool) :
    ({ a with present := .store a.present key present } : MapArrays maps mapId).byteMap m =
      (a.byteMap m).setPresent (key.eval m) (present.eval m) := by
  rw [ByteMap.setPresent, MapArrays.byteMap, ByteMap.mk.injEq]
  refine ⟨?_, rfl⟩
  funext k
  rw [Function.update_apply]
  rfl

/-- The value that the term of a key or an operand is cut down to. -/
theorem ofWord_resize (v : ZBv) (size : Nat) :
    Bytes.ofWord ((resize v (size * 8)).eval m) = Bytes.ofNat size (v.toNat m) := by
  rw [eval_resize]
  rfl

end Abstraction

section Steps

variable {maps : List MapInfo} (m : ZModel) {R : Option (Reads maps)} {blk : Option Nat}
  {st : Z3State maps} {mapId : Nat}

/-- The term that a write stores, as bytes. -/
theorem ofWord_splice {off size : Nat} (cur : ZTerm (.bv (valBits maps mapId))) (v : ZBv)
    (hsize : 0 < size) (hin : off + size ≤ valBytes maps mapId) :
    Bytes.ofWord (n := valBytes maps mapId) ((spliceBytes cur off size v).eval m) =
      (Bytes.ofWord (n := valBytes maps mapId) (cur.eval m)).splice off
        (Bytes.ofNat size (v.toNat m)) := by
  have hbits : (off + size) * 8 ≤ valBits maps mapId := Nat.mul_le_mul_right 8 hin
  rw [eval_spliceBytes m cur v hsize hbits, ← ofWord_resize]
  exact Bytes.ofWord_patch _ _

/-- The term that an addition stores, as bytes. The field lies inside the value, so it
is as wide as the access. -/
theorem ofWord_spliceSum {off size : Nat} (cur : ZTerm (.bv (valBits maps mapId))) (v : ZBv)
    (hsize : 0 < size) (hin : off + size ≤ valBytes maps mapId) :
    let len := min ((off + size) * 8) (valBits maps mapId) - off * 8
    let sum : ZBv := ⟨len, .bin .add (.extract (off * 8) len cur) (resize v len)⟩
    Bytes.ofWord (n := valBytes maps mapId) ((spliceBytes cur off size sum).eval m) =
      (Bytes.ofWord (n := valBytes maps mapId) (cur.eval m)).addAt off
        (Bytes.ofNat size (v.toNat m)) := by
  intro len sum
  have hbits : (off + size) * 8 ≤ valBits maps mapId := Nat.mul_le_mul_right 8 hin
  have hlen : len = size * 8 := by omega
  have hsum : (resize sum (size * 8)).eval m =
      (cur.eval m).extractLsb' (off * 8) (size * 8) + (resize v (size * 8)).eval m := by
    rw [eval_resize_setWidth]
    show BitVec.setWidth (size * 8) (BitVec.extractLsb' (off * 8) len _ + (resize v len).eval m) = _
    rw [hlen]
    exact BitVec.setWidth_eq _
  rw [eval_spliceBytes m cur sum hsize hbits, hsum, ← ofWord_resize]
  exact Bytes.ofWord_patch_add _ hin _

theorem write_refines {key value : Option Expr} {off size : Nat} (hsize : 0 < size)
    (hin : off + size ≤ valBytes maps mapId) :
    (mapWriteToZ3 R blk st mapId key off size value none).map (byteMaps m) =
      ((MapAction.write key off size value).request R blk m st mapId).map
        (·.step (byteMaps m st)) := by
  rw [MapAction.request]
  unfold mapWriteToZ3 mapKeyZ3
  cases hk : someToZ3 R blk st key with
  | error err => rfl
  | ok k =>
      cases hv : someToZ3 R blk st value with
      | error err => rfl
      | ok v =>
          have hstore := byteMaps_mapStore m st (resize k (keyBits maps mapId))
            (spliceBytes (.select (st.map mapId).value (resize k (keyBits maps mapId))) off size v)
          rw [ofWord_splice m _ v hsize hin, Term.eval_select, eval_resize] at hstore
          exact congrArg Except.ok hstore

theorem atomicAdd_refines {key value old : Option Expr} {off size : Nat} (hsize : 0 < size)
    (hin : off + size ≤ valBytes maps mapId) :
    (mapAtomicAddToZ3 R blk st mapId key off size value none).map (byteMaps m) =
      ((MapAction.atomicAdd key off size value old).request R blk m st mapId).map
        (·.step (byteMaps m st)) := by
  have hbits : (off + size) * 8 ≤ valBits maps mapId := Nat.mul_le_mul_right 8 hin
  have hfield : ¬ min ((off + size) * 8) (valBits maps mapId) ≤ off * 8 := by omega
  rw [MapAction.request]
  unfold mapAtomicAddToZ3 mapKeyZ3
  cases hk : someToZ3 R blk st key with
  | error err => rfl
  | ok k =>
      dsimp only [optToZ3, bind, Except.bind, pure, Except.pure, Int.toNat_natCast]
      rw [if_neg (by omega : ¬ (off : Int) < 0), if_neg hfield]
      cases hv : someToZ3 R blk st value with
      | error err => rfl
      | ok v =>
          have hstore := byteMaps_mapStore m st (resize k (keyBits maps mapId))
            (spliceBytes (.select (st.map mapId).value (resize k (keyBits maps mapId))) off size
              ⟨_, .bin .add (.extract (off * 8) (min ((off + size) * 8) (valBits maps mapId) - off * 8)
                (.select (st.map mapId).value (resize k (keyBits maps mapId)))) (resize v _)⟩)
          rw [ofWord_spliceSum m _ v hsize hin, Term.eval_select, eval_resize] at hstore
          exact congrArg Except.ok hstore

theorem byteMaps_storedArrays (st : Z3State maps) (hhash : isHashMap maps mapId = true)
    (key : ZTerm (.bv (keyBits maps mapId))) (present : ZTerm .bool)
    (v : ZTerm (.bv (valBits maps mapId))) :
    byteMaps m (st.setMap mapId (storedArrays st mapId key present v)) =
      Function.update (byteMaps m st) mapId
        (((byteMaps m st mapId).setPresent (key.eval m) (present.eval m)).setValue (key.eval m)
          (Bytes.ofWord (n := valBytes maps mapId) (v.eval m))) := by
  have hpresent := byteMap_storePresent m (st.map mapId) key present
  rw [byteMaps_setMap, storedArrays, if_pos hhash, byteMap_store]
  exact congrArg (fun c => Function.update (byteMaps m st) mapId (ByteMap.setValue c _ _)) hpresent

/-- What an update with a flag that looks at presence stores: the new value when the flag
allows it, else what is there. -/
theorem byteMaps_guarded (st : Z3State maps) (hhash : isHashMap maps mapId = true)
    (key : ZTerm (.bv (keyBits maps mapId))) (v : ZTerm (.bv (valBits maps mapId)))
    (flag : UpdateFlag) (ok : ZTerm .bool)
    (hok : ok.eval m = flag.allows ((byteMaps m st mapId).present (key.eval m))) :
    byteMaps m (st.setMap mapId (storedArrays st mapId key
        (.or ok (.select (st.map mapId).present key))
        (.ite ok v (.select (st.map mapId).value key)))) =
      Function.update (byteMaps m st) mapId ((byteMaps m st mapId).update (key.eval m)
        (Bytes.ofWord (n := valBytes maps mapId) (v.eval m)) flag) := by
  have hthere : (Term.select (st.map mapId).present key).eval m =
      (byteMaps m st mapId).present (key.eval m) := rfl
  have hvalue : Bytes.ofWord (n := valBytes maps mapId)
      ((Term.select (st.map mapId).value key).eval m) =
      (byteMaps m st mapId).value (key.eval m) := rfl
  rw [byteMaps_storedArrays m st hhash, Term.eval_or, Term.eval_ite, hthere, ByteMap.update, hok]
  cases hallows : flag.allows ((byteMaps m st mapId).present (key.eval m)) with
  | true => rfl
  | false =>
      have hsame := ByteMap.store_self (byteMaps m st mapId) (key.eval m)
      simp only [Bool.false_or, Bool.false_eq_true, if_false, hvalue]
      rw [hsame]

theorem update_refines (hhash : isHashMap maps mapId = true) {key value : Option Expr}
    {flag : UpdateFlag} {size : Nat} {idx : Int} :
    (mapUpdateToZ3 R blk st mapId key value (some (flagCode flag)) idx).map (byteMaps m) =
      ((MapAction.update key value flag size).request R blk m st mapId).map
        (·.step (byteMaps m st)) := by
  have hplain : ¬(isArrayMap maps mapId || isProgMap maps mapId) = true := by
    have hnot := not_indexed_of_hash hhash
    unfold isIndexed at hnot
    simp [hnot]
  rw [MapAction.request]
  unfold mapUpdateToZ3 mapKeyZ3
  cases hk : someToZ3 R blk st key with
  | error err => rfl
  | ok k =>
      cases hv : someToZ3 R blk st value with
      | error err => rfl
      | ok v =>
          dsimp only [bind, Except.bind, pure, Except.pure]
          rw [if_neg hplain]
          cases flag with
          | any =>
              have harrays : mapStore st mapId (resize k (keyBits maps mapId))
                  (resize v (valBits maps mapId)) true =
                  st.setMap mapId (storedArrays st mapId (resize k (keyBits maps mapId))
                    (.boolVal true) (resize v (valBits maps mapId))) := by
                simp [mapStore, storedArrays]
              have hstore := byteMaps_storedArrays m st hhash (resize k (keyBits maps mapId))
                (.boolVal true) (resize v (valBits maps mapId))
              rw [← harrays, eval_resize] at hstore
              exact congrArg Except.ok (hstore.trans (by rw [← ofWord_resize]; rfl))
          | noExist =>
              have hstore := byteMaps_guarded m st hhash (resize k (keyBits maps mapId))
                (resize v (valBits maps mapId)) .noExist
                (.not (.select (st.map mapId).present (resize k (keyBits maps mapId)))) rfl
              rw [eval_resize] at hstore
              exact congrArg Except.ok (hstore.trans (by rw [← ofWord_resize]; rfl))
          | exist =>
              have hstore := byteMaps_guarded m st hhash (resize k (keyBits maps mapId))
                (resize v (valBits maps mapId)) .exist
                (.select (st.map mapId).present (resize k (keyBits maps mapId))) rfl
              rw [eval_resize] at hstore
              exact congrArg Except.ok (hstore.trans (by rw [← ofWord_resize]; rfl))

theorem delete_refines (hhash : isHashMap maps mapId = true) {key : Option Expr} :
    (mapDeleteToZ3 R blk st mapId key).map (byteMaps m) =
      ((MapAction.delete key).request R blk m st mapId).map (·.step (byteMaps m st)) := by
  rw [MapAction.request]
  unfold mapDeleteToZ3 mapKeyZ3
  rw [if_pos hhash]
  cases hk : someToZ3 R blk st key with
  | error err => rfl
  | ok k =>
      have hmap := byteMaps_setMap m st ({ st.map mapId with
        present := .store (st.map mapId).present (resize k (keyBits maps mapId)) (.boolVal false) })
      rw [byteMap_storePresent, eval_resize] at hmap
      exact congrArg Except.ok hmap

/-- One action on a hash map does to the maps what is asked, and fails only when one of
its operands has no term. -/
theorem event_refines (e : MapEvent maps) :
    (e.event.toZ3 R blk st).map (byteMaps m) =
      (e.request R blk m st).map (·.step (byteMaps m st)) := by
  obtain ⟨block, idx, id, action, hhash, hinside⟩ := e
  cases action with
  | write key off size value => exact write_refines m hinside.1 hinside.2
  | atomicAdd key off size value old => exact atomicAdd_refines m hinside.1 hinside.2
  | update key value flag size => exact update_refines m hhash
  | delete key => exact delete_refines m hhash

theorem request_of_ok {st' : Z3State maps} {e : MapEvent maps}
    (h : e.event.toZ3 R blk st = .ok st') :
    ∃ r, e.request R blk m st = .ok r ∧ byteMaps m st' = r.step (byteMaps m st) := by
  have hstep : (e.event.toZ3 R blk st).map (byteMaps m) =
      (e.request R blk m st).map (·.step (byteMaps m st)) := event_refines m e
  rw [h] at hstep
  obtain ⟨r, hr, hr'⟩ := map_eq_ok.mp hstep.symm
  exact ⟨r, hr, hr'.symm⟩

theorem request_of_error {err : LowerError} {e : MapEvent maps}
    (h : e.event.toZ3 R blk st = .error err) : e.request R blk m st = .error err := by
  have hstep : (e.event.toZ3 R blk st).map (byteMaps m) =
      (e.request R blk m st).map (·.step (byteMaps m st)) := event_refines m e
  rw [h] at hstep
  cases hr : e.request R blk m st with
  | error err' =>
      rw [hr] at hstep
      cases hstep
      rfl
  | ok r =>
      rw [hr] at hstep
      cases hstep

/-- The encoding of a sequence of actions on hash maps takes the maps to where their
requests, one after the other, take maps of byte arrays. It fails only where an operand has
no term. -/
theorem map_actions_refine (R : Option (Reads maps)) (blk : Option Nat) (m : ZModel)
    (st : Z3State maps) (es : List (MapEvent maps)) :
    match runMapEvents R blk st es with
    | .ok st' => ∃ rs, Requests R blk m st es rs ∧
        byteMaps m st' = rs.foldl MapRequest.step (byteMaps m st)
    | .error err => ∃ done e rest st', es = done ++ e :: rest ∧
        runMapEvents R blk st done = .ok st' ∧ e.request R blk m st' = .error err := by
  induction es generalizing st with
  | nil => exact ⟨[], .nil st, rfl⟩
  | cons e es ih =>
      have hrun : runMapEvents R blk st (e :: es) =
          e.event.toZ3 R blk st >>= fun st' => runMapEvents R blk st' es := rfl
      cases hst : e.event.toZ3 R blk st with
      | error err =>
          rw [hrun, hst]
          exact ⟨[], e, es, st, rfl, rfl, request_of_error m hst⟩
      | ok st₁ =>
          have hrest : runMapEvents R blk st (e :: es) = runMapEvents R blk st₁ es := by
            rw [hrun, hst]
            rfl
          have hrec := ih st₁
          rw [hrest]
          cases hst' : runMapEvents R blk st₁ es with
          | ok st' =>
              rw [hst'] at hrec
              obtain ⟨rs, hrs, hmaps⟩ := hrec
              obtain ⟨r, hr, hfirst⟩ := request_of_ok m hst
              refine ⟨r :: rs, .cons hr hst hrs, ?_⟩
              rw [hmaps, hfirst]
              rfl
          | error err =>
              rw [hst'] at hrec
              obtain ⟨done, e', rest, st', hes, hdone, herr⟩ := hrec
              refine ⟨e :: done, e', rest, st', by rw [hes]; rfl, ?_, herr⟩
              have hcons : runMapEvents R blk st (e :: done) =
                  e.event.toZ3 R blk st >>= fun st' => runMapEvents R blk st' done := rfl
              rw [hcons, hst]
              exact hdone

end Steps

/-- One hash map of four-byte counters. -/
def counterMaps : List MapInfo := [⟨"counters", 1, 4, 4, 8⟩]

/-- An action on the counter of key 1, by the instruction at `idx`. -/
def counterEvent (idx : Nat) (action : MapAction) (h : action.Inside 4) : MapEvent counterMaps :=
  ⟨0, idx, 0, action, rfl, h⟩

/-- A counter is set, deleted, written through the pointer that was looked up before, and
counted up. -/
def staleCounter : List (MapEvent counterMaps) :=
  [counterEvent 1 (.update (some (.num 1 4 (-1))) (some (.num 5 4 (-1))) .any 4) trivial,
    counterEvent 2 (.delete (some (.num 1 4 (-1)))) trivial,
    counterEvent 3 (.write (some (.num 1 4 (-1))) 1 2 (some (.num 0x0203 2 (-1))))
      ⟨by decide, by decide⟩,
    counterEvent 4 (.atomicAdd (some (.num 1 4 (-1))) 0 4 (some (.num 0xFF 4 (-1))) none)
      ⟨by decide, by decide⟩]

/-- The entry stays deleted, and its bytes are those of the value with the write and the
addition. -/
theorem map_actions_refine_stale :
    ∃ st', runMapEvents none none (makeInitState counterMaps) staleCounter = .ok st' ∧
      (byteMaps zeroModel st' 0).present 1 = false ∧
      List.ofFn ((byteMaps zeroModel st' 0).value 1) = [4#8, 4#8, 2#8, 0#8] := by
  obtain ⟨st', hrun⟩ : ∃ st', runMapEvents none none (makeInitState counterMaps) staleCounter =
      .ok st' := ⟨_, rfl⟩
  have hmaps := map_actions_refine none none zeroModel (makeInitState counterMaps) staleCounter
  rw [hrun] at hmaps
  obtain ⟨rs, hrs, hmaps⟩ := hmaps
  refine ⟨st', hrun, ?_⟩
  rw [hmaps]
  obtain _ | ⟨⟨⟩, ⟨⟩, hrs⟩ := hrs
  obtain _ | ⟨⟨⟩, ⟨⟩, hrs⟩ := hrs
  obtain _ | ⟨⟨⟩, ⟨⟩, hrs⟩ := hrs
  obtain _ | ⟨⟨⟩, ⟨⟩, hrs⟩ := hrs
  cases hrs
  exact ⟨rfl, by decide⟩

end Hornet
