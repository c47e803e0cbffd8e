import Hornet.Track.MemoryOp

/-!
An accepted instruction leaves the memory as the machine does exactly when the encoding
accounts for it.
-/

namespace Hornet

open Smt

section Write

variable {maps : List MapInfo} {m : ZModel} {st st' : Z3State maps}

theorem contents_value {mapId : Nat} {k : BitVec (keyBits maps mapId)}
    (h : isIndexed maps mapId = true → inRange maps mapId k = true) :
    (st.contents m).value mapId k = (st.map mapId).value.eval m k := by
  show (if isIndexed maps mapId && !inRange maps mapId k then 0#_ else _) = _
  split
  · simp_all
  · rfl

theorem contents_mapStore {mapId : Nat} {key : ZTerm (.bv (keyBits maps mapId))}
    (new : ZTerm (.bv (valBits maps mapId)))
    (h : isIndexed maps mapId = true → inRange maps mapId (key.eval m) = true) :
    (mapStore st mapId key new false).contents m =
      (st.contents m).setValue mapId (key.eval m) (new.eval m) := by
  have hpresence : MapArrays.presence m (⟨(st.map mapId).present,
      .store (st.map mapId).value key new⟩ : MapArrays maps mapId) =
      (st.contents m).present mapId := rfl
  unfold mapStore
  simp only [Bool.false_and, if_false, Bool.false_eq_true]
  rw [contents_setMap, hpresence, values_store _ _ _ _ h, Function.update_eq_self]
  rfl

theorem setValue_self (c : Contents maps) (mapId : Nat) (key : BitVec (keyBits maps mapId)) :
    c.setValue mapId key (c.value mapId key) = c := by
  simp [Contents.setValue, Function.update_eq_self]

/-- A write of `v₁` at bit `s` of a value, against one of `v₂` at the byte `off`. -/
theorem patched_iff {c : Contents maps} {mapId : Nat} {key : BitVec (keyBits maps mapId)}
    {s off n : Nat} {v₁ v₂ : BitVec (n * 8)} (hs : s = off * 8 ∨ valBits maps mapId ≤ s)
    (hv : s = off * 8 → v₁ = v₂) :
    c.setValue mapId key (Lib.patch (c.value mapId key) s v₁) = c.write v₂ (.value mapId key off) ↔
      s = off * 8 ∨ c.write v₂ (.value mapId key off) = c := by
  rcases hs with hs | hbeyond
  · rw [hs, hv hs]
    exact iff_of_true rfl (.inl rfl)
  · rw [Lib.patch_beyond _ hbeyond, setValue_self]
    constructor
    · exact fun h => .inr h.symm
    · rintro (hs | h)
      · rw [Contents.write, ← hs, Lib.patch_beyond _ hbeyond, setValue_self]
      · exact h.symm

variable (m) in
/-- The bit of a value of `w` bits at which the encoding writes. -/
def bitPos (w : Nat) (vo : Option ZBv) (addr : Int) : Nat :=
  match vo with
  | none => addr.toNat * 8
  | some v => (((v.toNat m + addr) * 8) % 2 ^ w).toNat

theorem bitPos_iff {w off n : Nat} {vo : Option ZBv} {addr : Int} (hneg : vo = none → 0 ≤ addr)
    (hoff : (off : Int) = (varDist m vo + addr) % 2 ^ 64) (hin : (off + n) * 8 ≤ w) (hn : 0 < n)
    (hw : w < 2 ^ 35) :
    (bitPos m w vo addr = off * 8 ∨ w ≤ bitPos m w vo addr) ∧
      (bitPos m w vo addr = off * 8 ↔ FindsByte m w vo addr off) := by
  cases vo with
  | none =>
      have haddr : 0 ≤ addr := hneg rfl
      simp only [varDist, Option.map_none, Option.getD_none] at hoff
      simp only [bitPos, FindsByte]
      constructor <;> omega
  | some v =>
      have hbeyond := bitPos_eq_or_beyond (x := v.toNat m + addr) hoff hin hn hw
      have hpos : (0 : Int) ≤ ((v.toNat m + addr) * 8) % 2 ^ w := Int.emod_nonneg _ (by positivity)
      simp only [bitPos, FindsByte]
      constructor <;> omega

/-- The shift of an access at a variable offset. -/
theorem toNat_varShift {w : Nat} (v : ZBv) (addr : Int) :
    ((Term.bin .add (resize v w) (bvVal addr w)).eval m * 8#w).toNat = bitPos m w (some v) addr := by
  have hbase : (Term.bin .add (resize v w) (bvVal addr w)).eval m =
      BitVec.ofInt w (v.toNat m + addr) := eval_addrTerm m w addr (some v)
  have height : (8#w) = BitVec.ofInt w 8 := rfl
  rw [hbase, height, ← BitVec.ofInt_mul, BitVec.toNat_ofInt]
  rfl

/-- A splice at a constant offset, inside the value or beyond it. -/
theorem eval_splice_constant {w : Nat} (cur : ZTerm (.bv w)) {addr : Int} {n : Nat} (v : ZBv)
    (hn : 0 < n) (h : (addr.toNat + n) * 8 ≤ w ∨ w ≤ addr.toNat * 8) :
    (spliceBytes cur addr.toNat n v).eval m =
      Lib.patch (cur.eval m) (bitPos m w none addr) ((resize v (n * 8)).eval m) := by
  rcases h with hin | hbeyond
  · exact eval_spliceBytes m cur v hn hin
  · have hcur : spliceBytes cur addr.toNat n v = cur := if_pos hbeyond
    rw [hcur, bitPos, Lib.patch_beyond _ hbeyond]

end Write

section Actions

variable {maps : List MapInfo} {R : Option (Reads maps)} {blk : Option Nat} {st st' : Z3State maps}
  {m : ZModel}

theorem contents_pktWrite {off : Int} {varOff : Option Expr} {n : Nat} {value : Option Expr}
    (hn : n ≤ 8) (h : pktWriteToZ3 R blk st off varOff n value = .ok st') :
    ∃ vo v, optToZ3 R blk st varOff = .ok vo ∧ someToZ3 R blk st value = .ok v ∧
      st'.contents m = (st.contents m).write ((resize v (n * 8)).eval m)
        (.pkt (BitVec.ofInt PKT_ADDR_BITS (varDist m vo + off))) := by
  obtain ⟨vo, hvo, h⟩ := Lib.bind_eq_ok.mp h
  obtain ⟨v, hv, h⟩ := Lib.bind_eq_ok.mp h
  cases h
  refine ⟨vo, v, hvo, hv, Contents.ext ?_ rfl rfl rfl⟩
  have hsmall : n ≤ 2 ^ PKT_ADDR_BITS := le_trans hn (by decide)
  show (storeBytes _ _ _ _).eval m = _
  rw [eval_storeBytes m _ _ _ hsmall, eval_addrTerm]
  rfl

theorem contents_bssWrite {key : String} {off : Int} {varOff : Option Expr} {n : Nat}
    {value : Option Expr} (hpos : 0 < n) (hn : n ≤ 8)
    (h : bssWriteToZ3 R blk st key off n value varOff = .ok st') :
    ∃ vo v, optToZ3 R blk st varOff = .ok vo ∧ someToZ3 R blk st value = .ok v ∧
      st'.contents m = (st.contents m).write ((resize v (n * 8)).eval m)
        (.bss (some key) (BitVec.ofInt BSS_ADDR_BITS (varDist m vo + off))) := by
  obtain ⟨vo, hvo, h⟩ := Lib.bind_eq_ok.mp h
  obtain ⟨v, hv, h⟩ := Lib.bind_eq_ok.mp h
  have hmax : max n 1 = n := by omega
  dsimp only at h
  rw [hmax] at h
  cases h
  refine ⟨vo, v, hvo, hv, ?_⟩
  have hsmall : n ≤ 2 ^ BSS_ADDR_BITS := le_trans hn (by decide)
  rw [contents_setBss, eval_storeBytes m _ _ _ hsmall, eval_addrTerm]
  rfl

/-- A write or an addition to a value writes one field of it. -/
structure Patches (m : ZModel) (st st' : Z3State maps) (mapId : Nat) (key : ZBv) (vo : Option ZBv)
    (addr : Int) (n : Nat) (x : BitVec (n * 8)) : Prop where
  nonneg : vo = none → 0 ≤ addr
  contents : (vo = none → (addr.toNat + n) * 8 ≤ valBits maps mapId ∨
      valBits maps mapId ≤ addr.toNat * 8) →
    (isIndexed maps mapId = true →
      inRange maps mapId ((resize key (keyBits maps mapId)).eval m) = true) →
    st'.contents m = (st.contents m).setValue mapId ((resize key (keyBits maps mapId)).eval m)
      (Lib.patch ((st.contents m).value mapId ((resize key (keyBits maps mapId)).eval m))
        (bitPos m (valBits maps mapId) vo addr) x)

theorem patches_mapWrite {mapId : Nat} {mapKey : Option Expr} {addr : Int} {n : Nat}
    {value varOff : Option Expr} (hn : 0 < n)
    (h : mapWriteToZ3 R blk st mapId mapKey addr n value varOff = .ok st') :
    ∃ key vo v, someToZ3 R blk st mapKey = .ok key ∧ optToZ3 R blk st varOff = .ok vo ∧
      someToZ3 R blk st value = .ok v ∧
      Patches m st st' mapId key vo addr n ((resize v (n * 8)).eval m) := by
  obtain ⟨k, hk, h⟩ := Lib.bind_eq_ok.mp h
  obtain ⟨key, hkey, hk⟩ := Lib.bind_eq_ok.mp hk
  cases hk
  obtain ⟨v, hv, h⟩ := Lib.bind_eq_ok.mp h
  obtain ⟨vo, hvo, h⟩ := Lib.bind_eq_ok.mp h
  refine ⟨key, vo, v, hkey, hvo, hv, ?_⟩
  cases vo with
  | some v' =>
      cases h
      refine ⟨nofun, fun _ hentry => ?_⟩
      rw [contents_mapStore _ hentry, eval_spliceBytesVar, toNat_varShift, Term.eval_select,
        contents_value hentry]
  | none =>
      dsimp only at h
      split at h
      · cases h
      · rename_i haddr
        cases h
        refine ⟨fun _ => by omega, fun hin hentry => ?_⟩
        rw [contents_mapStore _ hentry, eval_splice_constant _ _ hn (hin rfl), Term.eval_select,
          contents_value hentry]

/-- The field that an addition at a variable offset reads. -/
theorem eval_extractBytesVar {w : Nat} (cur : ZTerm (.bv w)) (v : ZBv) (addr : Int) (n : Nat) :
    (extractBytesVar cur (.bin .add (resize v w) (bvVal addr w)) n).term.eval m =
      (cur.eval m).extractLsb' (bitPos m w (some v) addr) (n * 8) := by
  have hshift : ((Term.bin .mul (.bin .add (resize v w) (bvVal addr w)) (bvVal 8 w)).eval m).toNat =
      bitPos m w (some v) addr := toNat_varShift v addr
  show (resize ⟨w, _⟩ (n * 8)).eval m = _
  rw [eval_resize_setWidth]
  apply BitVec.eq_of_getLsbD_eq
  intro i hi
  rw [BitVec.getLsbD_setWidth, BitVec.getLsbD_extractLsb', ← hshift]
  simp only [Term.eval_bin, BvOp.eval, BitVec.ushiftRight_eq', BitVec.getLsbD_ushiftRight]

theorem eval_resize_self {w : Nat} (t : ZTerm (.bv w)) : (resize ⟨w, t⟩ w).eval m = t.eval m := by
  rw [eval_resize_setWidth]
  exact BitVec.setWidth_eq _

theorem patches_mapAtomicAdd {mapId : Nat} {mapKey : Option Expr} {addr : Int} {n : Nat}
    {value varOff : Option Expr} (hn : 0 < n)
    (h : mapAtomicAddToZ3 R blk st mapId mapKey addr n value varOff = .ok st') :
    ∃ key vo v x, someToZ3 R blk st mapKey = .ok key ∧ optToZ3 R blk st varOff = .ok vo ∧
      someToZ3 R blk st value = .ok v ∧ Patches m st st' mapId key vo addr n x ∧
      ∀ off, bitPos m (valBits maps mapId) vo addr = off * 8 → (off + n) * 8 ≤ valBits maps mapId →
        (isIndexed maps mapId = true →
          inRange maps mapId ((resize key (keyBits maps mapId)).eval m) = true) →
        x = (st.contents m).read n (.value mapId ((resize key (keyBits maps mapId)).eval m) off) +
          (resize v (n * 8)).eval m := by
  obtain ⟨k, hk, h⟩ := Lib.bind_eq_ok.mp h
  obtain ⟨key, hkey, hk⟩ := Lib.bind_eq_ok.mp hk
  cases hk
  obtain ⟨vo, hvo, h⟩ := Lib.bind_eq_ok.mp h
  cases vo with
  | some v' =>
      obtain ⟨v, hv, h⟩ := Lib.bind_eq_ok.mp h
      cases h
      have hfield := eval_extractBytesVar (m := m)
        (.select (st.map mapId).value (resize key (keyBits maps mapId))) v' addr n
      let x : BitVec (n * 8) :=
        ((st.map mapId).value.eval m ((resize key (keyBits maps mapId)).eval m)).extractLsb'
          (bitPos m (valBits maps mapId) (some v') addr) (n * 8) + (resize v (n * 8)).eval m
      refine ⟨key, some v', v, x, hkey, hvo, hv, ⟨nofun, fun _ hentry => ?_⟩, ?_⟩
      · rw [contents_mapStore _ hentry, eval_spliceBytesVar, toNat_varShift, Term.eval_select,
          contents_value hentry]
        have hsum := eval_resize_self (m := m) (Term.bin .add
          (extractBytesVar (.select (st.map mapId).value (resize key (keyBits maps mapId)))
            (.bin .add (resize v' (valBits maps mapId)) (bvVal addr (valBits maps mapId))) n).term
          (resize v (n * 8)))
        have hx := hsum.trans (congrArg (· + (resize v (n * 8)).eval m) hfield)
        exact congrArg (fun y => (st.contents m).setValue mapId _ (Lib.patch _ _ y)) hx
      · intro off hpos hin hentry
        show _ + _ = _
        rw [hpos, Contents.read, contents_value hentry]
  | none =>
      dsimp only at h
      split at h
      · cases h
      · rename_i haddr
        split at h
        · cases h
        · rename_i hfield
          obtain ⟨v, hv, h⟩ := Lib.bind_eq_ok.mp h
          cases h
          let len := min ((addr.toNat + n) * 8) (valBits maps mapId) - addr.toNat * 8
          let sum : ZTerm (.bv len) := .bin .add (.extract (addr.toNat * 8) len
            (.select (st.map mapId).value (resize key (keyBits maps mapId)))) (resize v len)
          refine ⟨key, none, v, (resize ⟨len, sum⟩ (n * 8)).eval m, hkey, hvo, hv,
            ⟨fun _ => by omega, fun hin hentry => ?_⟩, ?_⟩
          · rw [contents_mapStore _ hentry, eval_splice_constant _ _ hn (hin rfl), Term.eval_select,
              contents_value hentry]
          · intro off hpos hin hentry
            have hlow : addr.toNat * 8 = off * 8 := hpos
            have hwidth : len = n * 8 := by omega
            rw [eval_resize_setWidth, Contents.read, contents_value hentry, ← hlow]
            show BitVec.setWidth (n * 8) (BitVec.extractLsb' (addr.toNat * 8) len _ +
              (resize v len).eval m) = _
            rw [hwidth]
            exact BitVec.setWidth_eq _

theorem cellsNat_append_byte {cs : List ZBv} (hcs : ∀ c ∈ cs, c.size = 8) (b : ZBv) :
    cellsNat m (cs ++ [b]) = cellsNat m cs + 2 ^ (8 * cs.length) * b.toNat m := by
  induction cs with
  | nil => simp [cellsNat]
  | cons c cs ih =>
      have hc : c.size = 8 := hcs c (by simp)
      have hexp : 8 * (cs.length + 1) = 8 + 8 * cs.length := by omega
      rw [List.cons_append, cellsNat, ih (fun c' hc' => hcs c' (by simp [hc'])), cellsNat, hc,
        List.length_cons, hexp, Nat.pow_add, Nat.mul_add, Nat.mul_assoc, Nat.add_assoc]

/-- The number that the bytes of an array make up. -/
theorem cellsNat_selectBytes {d : Nat} (arr : ZTerm (.array d (.bv 8))) (base : ZTerm (.bv d))
    (n : Nat) : cellsNat m (selectBytes arr base n) = Lib.getBytes (arr.eval m) (base.eval m) n := by
  induction n with
  | zero => rfl
  | succ n ih =>
      have hsplit : selectBytes arr base (n + 1) = selectBytes arr base n ++
          [⟨8, .select arr (.bin .add base (bvVal n d))⟩] := by
        simp [selectBytes, List.range_succ]
      have hsizes : ∀ c ∈ selectBytes arr base n, c.size = 8 := by
        intro c hc
        obtain ⟨i, -, rfl⟩ := List.mem_map.mp hc
        rfl
      have hlen : (selectBytes arr base n).length = n := by simp [selectBytes]
      rw [hsplit, cellsNat_append_byte hsizes, hlen, ih]
      rfl

theorem concatCells_ok {d : Nat} (arr : ZTerm (.array d (.bv 8))) (base : ZTerm (.bv d)) {n : Nat}
    (hn : 0 < n) : ∃ t, concatCells (selectBytes arr base n) = .ok t := by
  have hlen : (selectBytes arr base n).length = n := by simp [selectBytes]
  cases hbytes : selectBytes arr base n with
  | nil =>
      rw [hbytes, List.length_nil] at hlen
      omega
  | cons b bs => exact ⟨_, rfl⟩

theorem toNat_concatCells {cells : List ZBv} {t : ZBv} (h : concatCells cells = .ok t) :
    t.toNat m = cellsNat m cells := by
  cases cells with
  | nil => cases h
  | cons b bs =>
      cases h
      exact toNat_concatLE m b bs

/-- The sum that an addition to a `.bss` symbol writes. -/
theorem eval_bssSum {n : Nat} (hn : n = 1 ∨ n = 2 ∨ n = 4 ∨ n = 8) {d v t : ZBv}
    (h : aluBinary .ADD 0 (if n = 4 then .b4 else .b8) d v = .ok t) :
    (resize t (n * 8)).eval m = BitVec.ofNat (n * 8) (d.toNat m) + (resize v (n * 8)).eval m := by
  obtain ⟨w, hw, hlower⟩ : ∃ w, n * 8 ≤ w ∧ t.toNat m =
      (BitVec.ofNat w (d.toNat m) + BitVec.ofNat w (v.toNat m)).toNat := by
    by_cases hfour : n = 4
    · rw [if_pos hfour] at h
      obtain ⟨t', ht', -, hvalue⟩ := aluBinary_b4 m (show AluOp.ADD.isBinary from rfl) 0 d v
      cases h.symm.trans ht'
      exact ⟨32, by omega, hvalue⟩
    · rw [if_neg hfour] at h
      obtain ⟨t', ht', -, hvalue⟩ := aluBinary_b8 m (show AluOp.ADD.isBinary from rfl) 0 d v
      cases h.symm.trans ht'
      exact ⟨64, by omega, hvalue⟩
  rw [eval_resize, eval_resize, hlower]
  apply BitVec.eq_of_toNat_eq
  simp only [BitVec.toNat_ofNat, BitVec.toNat_add]
  have hdvd : 2 ^ (n * 8) ∣ 2 ^ w := pow_dvd_pow 2 hw
  rw [Nat.mod_mod_of_dvd _ hdvd, Nat.add_mod, Nat.mod_mod_of_dvd _ hdvd, Nat.mod_mod_of_dvd _ hdvd]

/-- The hooks know nothing of the read that an addition to a `.bss` symbol makes again. -/
def Rereads (R : Option (Reads maps)) : Prop :=
  ∀ R', R = some R' → ∀ key off varOff n, R'.readBss (.bssVal 0 (-1) key off varOff n) = .ok none

/-- A read of a `.bss` symbol that the hooks do not know. -/
theorem toNat_bssVal {block : Nat} {idx : Int} {key : Option String} {off : Int}
    {varOff : Option Expr} {n : Nat} {d : ZBv}
    (hfree : ∀ R', R = some R' → R'.readBss (.bssVal block idx key off varOff n) = .ok none)
    (h : exprToZ3 R blk st (.bssVal block idx key off varOff n) = .ok d) :
    ∃ vo, optToZ3 R blk st varOff = .ok vo ∧ d.toNat m = Lib.getBytes ((bssOf st key).eval m)
      (BitVec.ofInt BSS_ADDR_BITS (varDist m vo + off)) n := by
  unfold exprToZ3 at h
  obtain ⟨found, hfound, h⟩ := Lib.bind_eq_ok.mp h
  have hnone : found = none := by
    cases R with
    | none => exact (Except.ok.inj hfound).symm
    | some R' => exact Except.ok.inj (hfound.symm.trans (hfree R' rfl))
  subst hnone
  obtain ⟨vo, hvo, h⟩ := Lib.bind_eq_ok.mp h
  exact ⟨vo, hvo, by rw [toNat_concatCells h, cellsNat_selectBytes, eval_addrTerm]⟩

theorem contents_bssAtomicAdd {key : String} {off : Int} {varOff : Option Expr} {n : Nat}
    {value : Option Expr} (hR : Rereads R) (hn : n = 1 ∨ n = 2 ∨ n = 4 ∨ n = 8)
    (h : bssAtomicAddToZ3 R blk st key off n value varOff = .ok st') :
    ∃ vo v, optToZ3 R blk st varOff = .ok vo ∧ someToZ3 R blk st value = .ok v ∧
      st'.contents m = (st.contents m).write
        ((st.contents m).read n (.bss (some key) (BitVec.ofInt BSS_ADDR_BITS (varDist m vo + off))) +
          (resize v (n * 8)).eval m)
        (.bss (some key) (BitVec.ofInt BSS_ADDR_BITS (varDist m vo + off))) := by
  have hmax : max n 1 = n := by omega
  unfold bssAtomicAddToZ3 at h
  dsimp only at h
  rw [hmax] at h
  obtain ⟨vo, t, hvo, ht, hcontents⟩ := contents_bssWrite (m := m) (by omega) (by omega) h
  -- the sum is lowered after the old value, which comes from the state itself
  unfold someToZ3 exprToZ3 at ht
  obtain ⟨d, hd, ht⟩ := Lib.bind_eq_ok.mp ht
  obtain ⟨v, hv, ht⟩ := Lib.bind_eq_ok.mp ht
  refine ⟨vo, v, hvo, hv, ?_⟩
  have hold : d.toNat m = Lib.getBytes ((bssOf st (some key)).eval m)
      (BitVec.ofInt BSS_ADDR_BITS (varDist m vo + off)) n := by
    unfold someToZ3 at hd
    obtain ⟨vo', hvo', hd⟩ := toNat_bssVal (m := m)
      (fun R' hR' => hR R' hR' (some key) off varOff n) hd
    cases hvo.symm.trans hvo'
    exact hd
  rw [hcontents, eval_bssSum hn ht, hold]
  rfl

theorem not_indexed_of_hash {mapId : Nat} (h : isHashMap maps mapId = true) :
    isIndexed maps mapId = false := by
  unfold isHashMap mapTypeIn at h
  unfold isIndexed isArrayMap isProgMap mapTypeIn
  split at h
  · rename_i info hinfo
    have htype : info.type = 1 ∨ info.type = 5 ∨ info.type = 9 ∨ info.type = 10 := by
      simpa [HASH_MAP_TYPES] using h
    rcases htype with ht | ht | ht | ht <;> simp [ht, ARRAY_MAP_TYPES, PROG_MAP_TYPES]
  · cases h

theorem setPresent_self (c : Contents maps) (mapId : Nat) (key : BitVec (keyBits maps mapId)) :
    c.setPresent mapId key (c.present mapId key) = c := by
  simp [Contents.setPresent, Function.update_eq_self]

/-- The arrays of a map with one key stored to. -/
def storedArrays (st : Z3State maps) (mapId : Nat) (key : ZTerm (.bv (keyBits maps mapId)))
    (present : ZTerm .bool) (v : ZTerm (.bv (valBits maps mapId))) : MapArrays maps mapId where
  present :=
    if isHashMap maps mapId then .store (st.map mapId).present key present
    else (st.map mapId).present
  value := .store (st.map mapId).value key v

/-- A key lies beyond the array of an indexed map, or it has an entry. -/
theorem beyond_or_entry (mapId : Nat) (key : BitVec (keyBits maps mapId)) :
    (isIndexed maps mapId = true ∧ inRange maps mapId key = false) ∨
      (isIndexed maps mapId = true → inRange maps mapId key = true) := by
  cases inRange maps mapId key with
  | true => exact .inr fun _ => rfl
  | false =>
      cases isIndexed maps mapId with
      | true => exact .inl ⟨rfl, rfl⟩
      | false => exact .inr fun h => by cases h

theorem contents_storedArrays (mapId : Nat) (key : ZTerm (.bv (keyBits maps mapId)))
    (present : ZTerm .bool) (v : ZTerm (.bv (valBits maps mapId))) :
    (st.setMap mapId (storedArrays st mapId key present v)).contents m =
      if isIndexed maps mapId && !inRange maps mapId (key.eval m) then st.contents m
      else (if isHashMap maps mapId then
        (st.contents m).setPresent mapId (key.eval m) (present.eval m) else st.contents m).setValue
          mapId (key.eval m) (v.eval m) := by
  rw [contents_setMap]
  have hpresence : MapArrays.presence m (storedArrays st mapId key present v) =
      if isHashMap maps mapId then
        Function.update ((st.contents m).present mapId) (key.eval m) (present.eval m)
      else (st.contents m).present mapId := by
    by_cases hhash : isHashMap maps mapId = true
    · have hplain := not_indexed_of_hash hhash
      have hold : (st.contents m).present mapId = (st.map mapId).present.eval m :=
        presence_plain m hplain _
      rw [if_pos hhash, presence_plain m hplain, hold, storedArrays, if_pos hhash]
      funext k
      rw [Function.update_apply]
      rfl
    · rw [if_neg hhash]
      show (if _ then _ else _) = _
      rw [storedArrays, if_neg hhash]
      rfl
  rcases beyond_or_entry mapId (key.eval m) with hbeyond | hentry
  · have hhash : isHashMap maps mapId = false := by
      by_contra hhash
      have hplain : isIndexed maps mapId = false := not_indexed_of_hash (by simpa using hhash)
      rw [hplain] at hbeyond
      cases hbeyond.1
    have hvalues : MapArrays.values m (storedArrays st mapId key present v) =
        (st.contents m).value mapId := values_store_beyond _ _ _ _ hbeyond.1 hbeyond.2
    rw [if_pos (by simp [hbeyond.1, hbeyond.2]), hpresence, hvalues, hhash]
    simp only [Bool.false_eq_true, if_false, Function.update_eq_self]
  · have hvalues : MapArrays.values m (storedArrays st mapId key present v) =
        Function.update ((st.contents m).value mapId) (key.eval m) (v.eval m) :=
      values_store _ _ _ _ hentry
    have hcond : ¬(isIndexed maps mapId && !inRange maps mapId (key.eval m)) = true := by
      simpa using hentry
    rw [if_neg hcond, hpresence, hvalues]
    split
    · rfl
    · rw [Function.update_eq_self]
      rfl

/-- Whether the key of an update is present. -/
def presentTerm (st : Z3State maps) (mapId : Nat) (key : ZTerm (.bv (keyBits maps mapId))) :
    ZTerm .bool :=
  if isArrayMap maps mapId || isProgMap maps mapId then
    .cmp .ult key (bvVal (maxEntries maps mapId) (keyBits maps mapId))
  else .select (st.map mapId).present key

theorem eval_presentTerm (mapId : Nat) (key : ZTerm (.bv (keyBits maps mapId))) :
    (presentTerm st mapId key).eval m = (st.contents m).present mapId (key.eval m) := by
  show _ = MapArrays.presence m (st.map mapId) (key.eval m)
  unfold presentTerm
  by_cases hindexed : isIndexed maps mapId = true
  · have hchoice : (isArrayMap maps mapId || isProgMap maps mapId) = true := hindexed
    rw [if_pos hchoice, presence_indexed m hindexed]
    rfl
  · have hplain : isIndexed maps mapId = false := by simpa using hindexed
    have hchoice : ¬(isArrayMap maps mapId || isProgMap maps mapId) = true := hindexed
    rw [if_neg hchoice, presence_plain m hplain]
    rfl

theorem eval_updateApplies (flags : Option Int) (idx : Int) (present : ZTerm .bool) :
    (updateApplies flags idx present).eval m =
      Contents.ruleApplies flags (m .bool (.updateApplies idx)) (present.eval m) := by
  unfold updateApplies Contents.ruleApplies
  cases flags with
  | none => rfl
  | some f =>
      dsimp only
      split
      · rfl
      · split
        · rfl
        · split
          · rename_i h2
            simp [Guard.eval, h2]
          · rename_i h2
            simp [Guard.eval, h2]

/-- An update in the encoding: only a hash map takes a new key. -/
def encodedUpdate (c : Contents maps) (mapId : Nat) (key : BitVec (keyBits maps mapId))
    (v : BitVec (valBits maps mapId)) (flags : Option Int) (outcome : Bool) : Contents maps :=
  let present := c.present mapId key
  if Contents.ruleApplies flags outcome present && (present || !isIndexed maps mapId) then
    (if isHashMap maps mapId then c.setPresent mapId key true else c).setValue mapId key v
  else c

/-- The arrays that an update stores, whether it takes effect or not. -/
theorem contents_updateArrays {mapId : Nat} {key : ZTerm (.bv (keyBits maps mapId))}
    {present : ZTerm .bool} {x : ZTerm (.bv (valBits maps mapId))} {flags : Option Int}
    {outcome : Bool} {v : BitVec (valBits maps mapId)} {applied : Bool}
    (happlied : Contents.ruleApplies flags outcome
      ((st.contents m).present mapId (key.eval m)) = applied)
    (hpresent : present.eval m = (applied || (st.contents m).present mapId (key.eval m)))
    (hx : x.eval m = if applied then v else (st.map mapId).value.eval m (key.eval m)) :
    (st.setMap mapId (storedArrays st mapId key present x)).contents m =
      encodedUpdate (st.contents m) mapId (key.eval m) v flags outcome := by
  rw [contents_storedArrays, encodedUpdate, happlied]
  rcases beyond_or_entry mapId (key.eval m) with hbeyond | hentry
  · have habsent : (st.contents m).present mapId (key.eval m) = false := by
      show MapArrays.presence m (st.map mapId) (key.eval m) = false
      rw [presence_indexed m hbeyond.1]
      exact hbeyond.2
    rw [if_pos (by simp [hbeyond.1, hbeyond.2]), habsent, hbeyond.1]
    simp
  · have hopen : ((st.contents m).present mapId (key.eval m) || !isIndexed maps mapId) = true := by
      by_cases hindexed : isIndexed maps mapId = true
      · have hthere : (st.contents m).present mapId (key.eval m) = true := by
          show MapArrays.presence m (st.map mapId) (key.eval m) = true
          rw [presence_indexed m hindexed]
          exact hentry hindexed
        simp [hthere]
      · simp [hindexed]
    have hcond : ¬(isIndexed maps mapId && !inRange maps mapId (key.eval m)) = true := by
      simpa using hentry
    rw [if_neg hcond, hopen, hpresent, hx]
    cases applied with
    | true => rfl
    | false =>
        simp only [Bool.false_or, Bool.false_and, Bool.false_eq_true, if_false, setPresent_self,
          ite_self, ← contents_value hentry, setValue_self]

theorem contents_mapUpdate {mapId : Nat} {mapKey value : Expr} {flags : Option Int} {idx : Int}
    (h : mapUpdateToZ3 R blk st mapId (some mapKey) (some value) flags idx = .ok st') :
    ∃ k v, exprToZ3 R blk st mapKey = .ok k ∧ exprToZ3 R blk st value = .ok v ∧
      st'.contents m = encodedUpdate (st.contents m) mapId
        ((resize k (keyBits maps mapId)).eval m) ((resize v (valBits maps mapId)).eval m) flags
        (m .bool (.updateApplies idx)) := by
  obtain ⟨key, hkey, h⟩ := Lib.bind_eq_ok.mp h
  obtain ⟨k, hk, hkey⟩ := Lib.bind_eq_ok.mp hkey
  cases hkey
  obtain ⟨v, hv, h⟩ := Lib.bind_eq_ok.mp h
  unfold someToZ3 at hk hv
  refine ⟨k, v, hk, hv, ?_⟩
  obtain ⟨key, hkey⟩ : ∃ key, key = resize k (keyBits maps mapId) := ⟨_, rfl⟩
  have hrule := eval_updateApplies (m := m) flags idx (presentTerm st mapId key)
  rw [eval_presentTerm] at hrule
  rw [← hkey] at h ⊢
  have hpresent : (if isArrayMap maps mapId || isProgMap maps mapId then
      .cmp .ult key (bvVal (maxEntries maps mapId) (keyBits maps mapId))
      else .select (st.map mapId).present key) = presentTerm st mapId key := rfl
  dsimp only at h
  rw [hpresent] at h
  cases hguard : updateApplies flags idx (presentTerm st mapId key) with
  | ff =>
      rw [hguard] at h hrule
      cases h
      have hnot : Contents.ruleApplies flags (m .bool (.updateApplies idx))
          ((st.contents m).present mapId (key.eval m)) = false := hrule.symm
      rw [encodedUpdate, hnot]
      rfl
  | tt =>
      rw [hguard] at h hrule
      cases h
      have harrays : mapStore st mapId key (resize v (valBits maps mapId)) true =
          st.setMap mapId (storedArrays st mapId key (.boolVal true) (resize v (valBits maps mapId))) := by
        simp [mapStore, storedArrays]
      rw [harrays]
      exact contents_updateArrays hrule.symm rfl rfl
  | term ok =>
      rw [hguard] at h hrule
      cases h
      refine contents_updateArrays hrule.symm ?_ rfl
      rw [Term.eval_or, eval_presentTerm]
      rfl

theorem contents_mapDelete {mapId : Nat} {mapKey : Expr}
    (h : mapDeleteToZ3 R blk st mapId (some mapKey) = .ok st') :
    ∀ k, exprToZ3 R blk st mapKey = .ok k → st'.contents m =
      if isHashMap maps mapId then
        (st.contents m).setPresent mapId ((resize k (keyBits maps mapId)).eval m) false
      else st.contents m := by
  intro k hk
  unfold mapDeleteToZ3 at h
  split at h
  · rename_i hhash
    obtain ⟨key, hkey, h⟩ := Lib.bind_eq_ok.mp h
    obtain ⟨k', hk', hkey⟩ := Lib.bind_eq_ok.mp hkey
    unfold someToZ3 at hk'
    cases hk.symm.trans hk'
    cases hkey
    cases h
    have hplain := not_indexed_of_hash hhash
    have hold : (st.contents m).present mapId = (st.map mapId).present.eval m :=
      presence_plain m hplain _
    rw [if_pos hhash, contents_setMap, presence_plain m hplain]
    refine Contents.ext rfl ?_ ?_ rfl
    · refine congrArg (Function.update _ mapId) ?_
      rw [hold]
      funext j
      rw [Function.update_apply]
      rfl
    · exact Function.update_eq_self mapId (st.contents m).value
  · rename_i hhash
    cases h
    rw [if_neg hhash]

end Actions

end Hornet
