import Hornet.Lib.Patch
import Hornet.Track.Effects
import Hornet.Arith.Cells
import Mathlib.Tactic.Positivity

/-!
The memory that a symbolic state denotes under a model, and what the terms of the
actions do to it: writes at places of the packet, of a map value or of a `.bss`
symbol, updates and deletes.
-/

namespace Hornet

open Smt

variable {maps : List MapInfo}

/-- A map whose keys are the numbers below its number of entries. -/
def isIndexed (maps : List MapInfo) (mapId : Nat) : Bool :=
  isArrayMap maps mapId || isProgMap maps mapId

def inRange (maps : List MapInfo) (mapId : Nat) (key : BitVec (keyBits maps mapId)) : Bool :=
  key.ult (BitVec.ofInt (keyBits maps mapId) (maxEntries maps mapId))

/-- The memory of the machine. What no `.bss` symbol names is an object of its own. -/
@[ext] structure Contents (maps : List MapInfo) where
  pkt : BitVec PKT_ADDR_BITS → BitVec 8
  present : (mapId : Nat) → BitVec (keyBits maps mapId) → Bool
  value : (mapId : Nat) → BitVec (keyBits maps mapId) → BitVec (valBits maps mapId)
  bss : Option String → BitVec BSS_ADDR_BITS → BitVec 8

/-- The keys that are there; in an indexed map they are always the same. -/
def MapArrays.presence {mapId : Nat} (m : ZModel) (a : MapArrays maps mapId) :
    BitVec (keyBits maps mapId) → Bool :=
  if isIndexed maps mapId then inRange maps mapId else a.present.eval m

/-- The values, of which an indexed map has none beyond its entries. -/
def MapArrays.values {mapId : Nat} (m : ZModel) (a : MapArrays maps mapId) :
    BitVec (keyBits maps mapId) → BitVec (valBits maps mapId) :=
  fun k => if isIndexed maps mapId && !inRange maps mapId k then 0#_ else a.value.eval m k

def Z3State.contents (m : ZModel) (st : Z3State maps) : Contents maps where
  pkt := st.pkt.eval m
  present mapId := (st.map mapId).presence m
  value mapId := (st.map mapId).values m
  bss key := (bssOf st key).eval m

/-- Where an access through a pointer goes. -/
inductive Place (maps : List MapInfo) where
  | pkt (a : BitVec PKT_ADDR_BITS)
  | value (mapId : Nat) (key : BitVec (keyBits maps mapId)) (off : Nat)
  | bss (key : Option String) (a : BitVec BSS_ADDR_BITS)

namespace Contents

variable {n : Nat}

/-- The `n` bytes at a place. -/
def read (c : Contents maps) (n : Nat) : Place maps → BitVec (n * 8)
  | .pkt a => BitVec.ofNat _ (Lib.getBytes c.pkt a n)
  | .value mapId key off => (c.value mapId key).extractLsb' (off * 8) (n * 8)
  | .bss key a => BitVec.ofNat _ (Lib.getBytes (c.bss key) a n)

def setValue (c : Contents maps) (mapId : Nat) (key : BitVec (keyBits maps mapId))
    (v : BitVec (valBits maps mapId)) : Contents maps :=
  { c with value := Function.update c.value mapId (Function.update (c.value mapId) key v) }

def setPresent (c : Contents maps) (mapId : Nat) (key : BitVec (keyBits maps mapId)) (v : Bool) :
    Contents maps :=
  { c with present := Function.update c.present mapId (Function.update (c.present mapId) key v) }

def write (c : Contents maps) (v : BitVec (n * 8)) : Place maps → Contents maps
  | .pkt a => { c with pkt := Lib.putBytes c.pkt a v }
  | .value mapId key off => c.setValue mapId key (Lib.patch (c.value mapId key) (off * 8) v)
  | .bss key a => { c with bss := Function.update c.bss key (Lib.putBytes (c.bss key) a v) }

/-- The rule that the flags of an update set. The lock flag, bit 2, has no part in it. -/
def ruleApplies (flags : Option Int) (outcome present : Bool) : Bool :=
  match flags with
  | none => outcome
  | some f => if f % 4 = 0 then true else if f % 4 = 1 then !present else f % 4 = 2 && present

/-- `bpf_map_update_elem`. An indexed map takes no new keys. -/
def update (c : Contents maps) (mapId : Nat) (key : BitVec (keyBits maps mapId))
    (v : BitVec (valBits maps mapId)) (flags : Option Int) (outcome : Bool) : Contents maps :=
  let present := c.present mapId key
  if ruleApplies flags outcome present && (present || !isIndexed maps mapId) then
    (c.setPresent mapId key true).setValue mapId key v
  else c

/-- `bpf_map_delete_elem`, which fails on an indexed map. -/
def delete (c : Contents maps) (mapId : Nat) (key : BitVec (keyBits maps mapId)) : Contents maps :=
  if isIndexed maps mapId then c else c.setPresent mapId key false

end Contents

section Terms

variable (m : ZModel)

theorem eval_storeBytes {d n : Nat} (arr : ZTerm (.array d (.bv 8))) (base : ZTerm (.bv d))
    (val : ZTerm (.bv (n * 8))) (hn : n ≤ 2 ^ d) :
    (storeBytes arr base n val).eval m = Lib.putBytes (arr.eval m) (base.eval m) (val.eval m) := by
  have hfold : ∀ (is : List Nat) (arr : ZTerm (.array d (.bv 8))),
      (is.foldl (fun arr (i : Nat) =>
        .store arr (.bin .add base (bvVal i d)) (.extract (i * 8) 8 val)) arr).eval m =
      is.foldl (fun mem i => fun j =>
        if j = base.eval m + BitVec.ofNat d i then (val.eval m).extractLsb' (i * 8) 8 else mem j)
        (arr.eval m) := by
    intro is
    induction is with
    | nil => exact fun arr => rfl
    | cons i is ih =>
        intro arr
        rw [List.foldl_cons, List.foldl_cons, ih]
        congr 1
  rw [storeBytes, hfold]
  exact Lib.foldl_set_bytes (arr.eval m) (base.eval m) (val.eval m) hn

/-- The distance that a variable offset adds. -/
def varDist (vo : Option ZBv) : Nat := (vo.map (·.toNat m)).getD 0

theorem eval_addrTerm (d : Nat) (off : Int) (vo : Option ZBv) :
    (addrTerm d off vo).eval m = BitVec.ofInt d (varDist m vo + off) := by
  cases vo with
  | none => simp [addrTerm, varDist]
  | some v =>
      simp only [addrTerm, Term.eval_bin, BvOp.eval, eval_resize, eval_bvVal, varDist,
        Option.map_some, Option.getD_some, BitVec.ofInt_add, BitVec.ofInt_natCast]

theorem eval_resize_setWidth (b : ZBv) (n : Nat) :
    (resize b n).eval m = (b.term.eval m).setWidth n := by
  rw [eval_resize]
  exact BitVec.ofNat_toNat n (b.term.eval m)

theorem getLsbD_concat {a b n : Nat} (h : n = a + b) (x : ZTerm (.bv a)) (y : ZTerm (.bv b))
    (i : Nat) : ((Term.concat n h x y).eval m).getLsbD i =
      if i < b then (y.eval m).getLsbD i else (x.eval m).getLsbD (i - b) := by
  simp only [Term.eval_concat, BitVec.getLsbD_cast, BitVec.getLsbD_append]

/-- The parts of a word around a field from bit `lo` to bit `hi`. -/
def fieldBelow {w : Nat} (cur : ZTerm (.bv w)) (lo hi : Nat) (v : ZBv) : ZBv :=
  if lo > 0 then ⟨(hi - lo) + lo, .concat _ rfl (resize v (hi - lo)) (.extract 0 lo cur)⟩
  else ⟨hi - lo, resize v (hi - lo)⟩

def fieldWord {w : Nat} (cur : ZTerm (.bv w)) (lo hi : Nat) (v : ZBv) : ZBv :=
  let low := fieldBelow cur lo hi v
  if hi < w then ⟨(w - hi) + low.size, .concat _ rfl (.extract hi (w - hi) cur) low.term⟩ else low

section Field

variable {w lo hi : Nat} (cur : ZTerm (.bv w)) (v : ZBv)

theorem size_fieldBelow (h : lo ≤ hi) : (fieldBelow cur lo hi v).size = hi := by
  unfold fieldBelow
  split <;> dsimp only <;> omega

theorem getLsbD_fieldBelow {i : Nat} (hi' : i < hi) :
    ((fieldBelow cur lo hi v).term.eval m).getLsbD i =
      if lo ≤ i then (v.term.eval m).getLsbD (i - lo) else (cur.eval m).getLsbD i := by
  by_cases hlo : lo > 0
  · have hparts : fieldBelow cur lo hi v =
        ⟨(hi - lo) + lo, .concat _ rfl (resize v (hi - lo)) (.extract 0 lo cur)⟩ := if_pos hlo
    rw [hparts, getLsbD_concat, eval_resize_setWidth, BitVec.getLsbD_setWidth, Term.eval_extract,
      BitVec.getLsbD_extractLsb']
    by_cases hplace : i < lo
    · have hnot : ¬ lo ≤ i := by omega
      simp [hplace, hnot]
    · have hin : lo ≤ i := by omega
      have hwidth : i - lo < hi - lo := by omega
      simp [hplace, hin, hwidth]
  · have hparts : fieldBelow cur lo hi v = ⟨hi - lo, resize v (hi - lo)⟩ := if_neg hlo
    have hin : lo ≤ i := by omega
    have hwidth : i < hi - lo := by omega
    have hsub : i - lo = i := by omega
    rw [hparts, if_pos hin, eval_resize_setWidth, BitVec.getLsbD_setWidth, hsub]
    simp [hwidth]

theorem getLsbD_fieldWord (h : lo ≤ hi) {i : Nat} (hi' : i < w) :
    ((fieldWord cur lo hi v).term.eval m).getLsbD i =
      if lo ≤ i ∧ i < hi then (v.term.eval m).getLsbD (i - lo) else (cur.eval m).getLsbD i := by
  have hlow : i < hi → ((fieldBelow cur lo hi v).term.eval m).getLsbD i =
      if lo ≤ i ∧ i < hi then (v.term.eval m).getLsbD (i - lo) else (cur.eval m).getLsbD i := by
    intro hlt
    rw [getLsbD_fieldBelow m cur v hlt]
    simp [hlt]
  by_cases hend : hi < w
  · have hparts : fieldWord cur lo hi v = ⟨(w - hi) + (fieldBelow cur lo hi v).size,
        .concat _ rfl (.extract hi (w - hi) cur) (fieldBelow cur lo hi v).term⟩ := if_pos hend
    have hsize : (fieldBelow cur lo hi v).size = hi := size_fieldBelow cur v h
    rw [hparts, getLsbD_concat]
    by_cases hlt : i < hi
    · rw [if_pos (by omega), hlow hlt]
    · have hout : ¬(lo ≤ i ∧ i < hi) := by omega
      have hwidth : i - hi < w - hi := by omega
      have hplace : hi + (i - hi) = i := by omega
      rw [if_neg (by omega), if_neg hout, hsize, Term.eval_extract, BitVec.getLsbD_extractLsb']
      simp [hwidth, hplace]
  · have hparts : fieldWord cur lo hi v = fieldBelow cur lo hi v := if_neg hend
    rw [hparts]
    exact hlow (by omega)

end Field

theorem eval_spliceBytes {w : Nat} (cur : ZTerm (.bv w)) {off n : Nat} (v : ZBv) (hn : 0 < n)
    (h : (off + n) * 8 ≤ w) :
    (spliceBytes cur off n v).eval m =
      Lib.patch (cur.eval m) (off * 8) ((resize v (n * 8)).eval m) := by
  have hend : min ((off + n) * 8) w = off * 8 + n * 8 := by omega
  have hword : spliceBytes cur off n v =
      resize (fieldWord cur (off * 8) (min ((off + n) * 8) w) v) w := if_neg (by omega)
  apply BitVec.eq_of_getLsbD_eq
  intro i hi
  rw [hword, hend, Lib.getLsbD_patch _ _ _ hi, eval_resize_setWidth, eval_resize_setWidth,
    BitVec.getLsbD_setWidth, BitVec.getLsbD_setWidth, getLsbD_fieldWord m cur v (by omega) hi]
  by_cases hfield : off * 8 ≤ i ∧ i < off * 8 + n * 8
  · have hwidth : i - off * 8 < n * 8 := by omega
    simp [hi, hfield, hwidth]
  · simp [hi, hfield]

theorem eval_spliceBytesVar {w : Nat} (cur base : ZTerm (.bv w)) (n : Nat) (v : ZBv) :
    (spliceBytesVar cur base n v).eval m =
      Lib.patch (cur.eval m) (base.eval m * 8#w).toNat ((resize v (n * 8)).eval m) := by
  have hones : (bvVal (2 ^ (n * 8) - 1) (n * 8)).eval m = BitVec.allOnes (n * 8) := by
    apply BitVec.eq_of_toNat_eq
    rw [eval_bvVal, BitVec.toNat_ofInt, BitVec.toNat_allOnes]
    have hpos : 0 < 2 ^ (n * 8) := Nat.pow_pos (by decide)
    have hcast : ((2 : Int) ^ (n * 8) - 1) = ((2 ^ (n * 8) - 1 : Nat) : Int) := by
      push_cast [hpos]
      rfl
    rw [hcast]
    norm_cast
    exact Nat.mod_eq_of_lt (by omega)
  apply BitVec.eq_of_getLsbD_eq
  intro i hi
  rw [Lib.getLsbD_patch _ _ _ hi, eval_resize_setWidth, BitVec.getLsbD_setWidth]
  have hshift : BitVec.ofInt w 8 = 8#w := rfl
  simp only [spliceBytesVar, Term.eval_bin, Term.eval_compl, BvOp.eval, eval_resize_setWidth, hones,
    eval_bvVal, hshift]
  generalize (base.eval m * 8#w) = shift
  simp only [BitVec.getLsbD_or, BitVec.getLsbD_and, BitVec.getLsbD_not, BitVec.shiftLeft_eq',
    BitVec.getLsbD_shiftLeft, BitVec.getLsbD_setWidth, BitVec.getLsbD_allOnes]
  by_cases hbelow : i < shift.toNat
  · have hout : ¬(shift.toNat ≤ i ∧ i < shift.toNat + n * 8) := by omega
    simp [hi, hbelow, hout]
  · have hplace : i - shift.toNat < w := by omega
    by_cases hfield : i - shift.toNat < n * 8
    · have hin : shift.toNat ≤ i ∧ i < shift.toNat + n * 8 := by omega
      simp [hi, hbelow, hplace, hfield, hin]
    · have hout : ¬(shift.toNat ≤ i ∧ i < shift.toNat + n * 8) := by omega
      simp [hi, hbelow, hfield, hout]

/-- The bit position of a variable offset is that of the byte it reaches, or lies beyond
the word. -/
theorem bitPos_eq_or_beyond {w off n : Nat} {x : Int} (hoff : (off : Int) = x % 2 ^ 64)
    (hin : (off + n) * 8 ≤ w) (hn : 0 < n) (hw : w < 2 ^ 35) :
    (x * 8) % 2 ^ w = off * 8 ∨ (w : Int) ≤ (x * 8) % 2 ^ w := by
  by_cases hlt : (x * 8) % 2 ^ w < (w : Int)
  · left
    have hpow : w < 2 ^ w := Nat.lt_two_pow_self
    -- both positions are below the smaller of the word and 2^67, and equal modulo it
    obtain ⟨e, he, hew, he67⟩ : ∃ e, w < 2 ^ e ∧ e ≤ w ∧ e ≤ 67 := by
      rcases Nat.le_total w 67 with h | h
      · exact ⟨w, hpow, le_rfl, h⟩
      · exact ⟨67, by omega, h, le_rfl⟩
    have hmod : ((x * 8) % 2 ^ w) % 2 ^ e = (off * 8 : Int) % 2 ^ e := by
      rw [Int.emod_emod_of_dvd _ (pow_dvd_pow 2 hew), hoff]
      have h8 : x % 2 ^ 64 * 8 = (x * 8) % 2 ^ 67 := by omega
      rw [h8, Int.emod_emod_of_dvd _ (pow_dvd_pow 2 he67)]
    have hpos : (0 : Int) ≤ (x * 8) % 2 ^ w := Int.emod_nonneg _ (by positivity)
    have hecast : (w : Int) < 2 ^ e := by exact_mod_cast he
    have hleft : ((x * 8) % 2 ^ w) % 2 ^ e = (x * 8) % 2 ^ w := Int.emod_eq_of_lt hpos (by omega)
    have hright : (off * 8 : Int) % 2 ^ e = off * 8 := Int.emod_eq_of_lt (by omega) (by omega)
    rw [← hleft, hmod, hright]
  · right
    omega

end Terms

section States

variable (m : ZModel) (st : Z3State maps)

theorem contents_setMap (mapId : Nat) (a : MapArrays maps mapId) :
    (st.setMap mapId a).contents m =
      { st.contents m with
        present := Function.update (st.contents m).present mapId (a.presence m)
        value := Function.update (st.contents m).value mapId (a.values m) } :=
  Contents.ext rfl
    (funext fun id => Function.apply_update (fun _ a => MapArrays.presence m a) st.map mapId a id)
    (funext fun id => Function.apply_update (fun _ a => MapArrays.values m a) st.map mapId a id) rfl

theorem contents_setBss (key : String) (arr : BssArray) :
    (st.setBss key arr).contents m =
      { st.contents m with bss := Function.update (st.contents m).bss (some key) (arr.eval m) } := by
  refine Contents.ext rfl rfl rfl (funext fun k => ?_)
  show (bssOf (st.setBss key arr) k).eval m = _
  cases k with
  | none => rfl
  | some k =>
      by_cases hk : k = key
      · subst hk
        simp [bssOf, Z3State.setBss]
      · simp [bssOf, Z3State.setBss, hk, Z3State.contents]

variable {m} in
theorem values_store {mapId : Nat} (a : MapArrays maps mapId)
    (present : ZTerm (.array (keyBits maps mapId) .bool)) (key : ZTerm (.bv (keyBits maps mapId)))
    (v : ZTerm (.bv (valBits maps mapId)))
    (h : isIndexed maps mapId = true → inRange maps mapId (key.eval m) = true) :
    MapArrays.values m ⟨present, .store a.value key v⟩ =
      Function.update (a.values m) (key.eval m) (v.eval m) := by
  funext k
  by_cases hk : k = key.eval m
  · subst hk
    simp only [MapArrays.values, Function.update_self, Term.eval_store, if_true]
    split
    · simp_all
    · rfl
  · simp [MapArrays.values, hk]

variable {m} in
theorem values_store_beyond {mapId : Nat} (a : MapArrays maps mapId)
    (present : ZTerm (.array (keyBits maps mapId) .bool)) (key : ZTerm (.bv (keyBits maps mapId)))
    (v : ZTerm (.bv (valBits maps mapId))) (hindexed : isIndexed maps mapId = true)
    (h : inRange maps mapId (key.eval m) = false) :
    MapArrays.values m ⟨present, .store a.value key v⟩ = a.values m := by
  funext k
  by_cases hk : k = key.eval m
  · subst hk
    simp [MapArrays.values, hindexed, h]
  · simp [MapArrays.values, hk]

theorem presence_indexed {mapId : Nat} (hindexed : isIndexed maps mapId = true)
    (a : MapArrays maps mapId) : a.presence m = inRange maps mapId := if_pos hindexed

theorem presence_plain {mapId : Nat} (hindexed : isIndexed maps mapId = false)
    (a : MapArrays maps mapId) : a.presence m = a.present.eval m := by
  simp [MapArrays.presence, hindexed]

end States

end Hornet
