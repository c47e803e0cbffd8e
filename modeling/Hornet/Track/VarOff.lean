import Hornet.Track.MemoryStep

/-!
Accesses to a map value at a variable offset against those at a constant one. The
address is computed in as many bits as the value has, so what it wraps around by is
not the `2 ^ 64` of the machine.
-/

namespace Hornet

open Smt

section Access

variable {maps : List MapInfo} (R : Option (Reads maps)) (blk : Option Nat) (st : Z3State maps)
  (m : ZModel)

/-- The byte of the value at which the machine's address points. -/
def machineOffset (off : Int) (v : Nat) : Nat := ((v + off) % 2 ^ 64).toNat

/-- What the address of a variable offset wraps around by is lost in the shift. -/
def ShiftKept (n : Nat) (off : Int) (v : Nat) : Prop :=
  n ≤ 8 ∨ 8 * ((v + off) / 2 ^ 64) % 2 ^ (8 * n - 64) = 0

/-- A read, a write and an addition through a pointer are those of the `s` bytes of the
value from `a` on. -/
structure ActsOnBytes (mapId : Nat) (mapKey : Expr) (k : ZBv) (off : Int) (varOff : Option Expr)
    (s a : Nat) : Prop where
  read : ∀ block idx keyId,
    (∀ R', R = some R' →
      R'.readMap (.mapVal block idx (some mapId) (some mapKey) keyId off varOff s) = .ok none) →
    ∃ t, exprToZ3 R blk st (.mapVal block idx (some mapId) (some mapKey) keyId off varOff s) =
        .ok t ∧ t.size = s * 8 ∧
      (resize t (s * 8)).eval m =
        (st.contents m).read s (.value mapId ((resize k (keyBits maps mapId)).eval m) a)
  write : ∀ value x, exprToZ3 R blk st value = .ok x →
    ∃ st', mapWriteToZ3 R blk st mapId (some mapKey) off s (some value) varOff = .ok st' ∧
      st'.contents m = (st.contents m).write ((resize x (s * 8)).eval m)
        (.value mapId ((resize k (keyBits maps mapId)).eval m) a)
  add : ∀ value x, exprToZ3 R blk st value = .ok x →
    ∃ st', mapAtomicAddToZ3 R blk st mapId (some mapKey) off s (some value) varOff = .ok st' ∧
      st'.contents m = (st.contents m).write
        ((st.contents m).read s (.value mapId ((resize k (keyBits maps mapId)).eval m) a) +
          (resize x (s * 8)).eval m)
        (.value mapId ((resize k (keyBits maps mapId)).eval m) a)

end Access

/-- In every value of `n` bytes an access of `s` bytes at the constant offset `off` and a
variable one of value `v` is the access at the byte they add up to, and so is the one at
that constant offset. -/
def VariableAccessRight (n s : Nat) (off : Int) (v : Nat) : Prop :=
  ∀ (maps : List MapInfo) (R : Option (Reads maps)) (blk : Option Nat) (st : Z3State maps)
    (m : ZModel) (mapId : Nat) (mapKey varOff : Expr) (k t : ZBv),
    valBits maps mapId = n * 8 → exprToZ3 R blk st mapKey = .ok k →
    (isIndexed maps mapId = true →
      inRange maps mapId ((resize k (keyBits maps mapId)).eval m) = true) →
    exprToZ3 R blk st varOff = .ok t → t.toNat m = v →
    ActsOnBytes R blk st m mapId mapKey k off (some varOff) s (machineOffset off v) ∧
      ActsOnBytes R blk st m mapId mapKey k (machineOffset off v) none s (machineOffset off v)

section Offset

variable {n s v : Nat} {off : Int}

theorem machineOffset_cast : (machineOffset off v : Int) = (v + off) % 2 ^ 64 :=
  Int.toNat_of_nonneg (Int.emod_nonneg _ (by decide))

/-- The shift finds the byte exactly when it keeps nothing of what the address wraps by. -/
theorem bitPos_eq_iff {m : ZModel} {t : ZBv} (ht : t.toNat m = v)
    (hfit : machineOffset off v + s ≤ n) (hs : 0 < s) :
    bitPos m (n * 8) (some t) off = machineOffset off v * 8 ↔ ShiftKept n off v := by
  have hcast : (machineOffset off v : Int) = (v + off) % 2 ^ 64 := machineOffset_cast
  have hpos : (0 : Int) ≤ ((v + off) * 8) % 2 ^ (n * 8) := Int.emod_nonneg _ (by positivity)
  have hlt : (machineOffset off v * 8 : Int) < 2 ^ (n * 8) := by
    have hpow : n * 8 < 2 ^ (n * 8) := Nat.lt_two_pow_self
    have hcastPow : ((n * 8 : Nat) : Int) < 2 ^ (n * 8) := by exact_mod_cast hpow
    omega
  have hsplit : ((v : Int) + off) * 8 =
      machineOffset off v * 8 + 8 * ((v + off) / 2 ^ 64) * 2 ^ 64 := by
    omega
  have hdvd : ((v : Int) + off) * 8 % 2 ^ (n * 8) = machineOffset off v * 8 ↔
      (2 : Int) ^ (n * 8) ∣ 8 * ((v + off) / 2 ^ 64) * 2 ^ 64 := by
    have hself : (machineOffset off v * 8 : Int) % 2 ^ (n * 8) = machineOffset off v * 8 :=
      Int.emod_eq_of_lt (by omega) hlt
    calc ((v : Int) + off) * 8 % 2 ^ (n * 8) = machineOffset off v * 8
        ↔ (machineOffset off v * 8 + 8 * ((v + off) / 2 ^ 64) * 2 ^ 64 : Int) % 2 ^ (n * 8) =
            machineOffset off v * 8 % 2 ^ (n * 8) := by rw [hsplit, hself]
      _ ↔ (2 : Int) ^ (n * 8) ∣ 8 * ((v + off) / 2 ^ 64) * 2 ^ 64 := by
          rw [Int.emod_eq_emod_iff_emod_sub_eq_zero, add_sub_cancel_left,
            Int.dvd_iff_emod_eq_zero]
  have hnat : bitPos m (n * 8) (some t) off = machineOffset off v * 8 ↔
      ((v : Int) + off) * 8 % 2 ^ (n * 8) = machineOffset off v * 8 := by
    simp only [bitPos, ht]
    omega
  rw [hnat, hdvd, ShiftKept]
  by_cases hn : n ≤ 8
  · have hpow : (2 : Int) ^ (n * 8) ∣ 2 ^ 64 := pow_dvd_pow 2 (by omega)
    exact iff_of_true (hpow.mul_left _) (.inl hn)
  · have hexp : n * 8 = (8 * n - 64) + 64 := by omega
    have hpow : (2 : Int) ^ (n * 8) = 2 ^ (8 * n - 64) * 2 ^ 64 := by
      rw [← pow_add, ← hexp]
    rw [hpow, Int.mul_dvd_mul_iff_right (by decide), Int.dvd_iff_emod_eq_zero]
    simp [hn]

end Offset

section Acts

variable {maps : List MapInfo} {R : Option (Reads maps)} {blk : Option Nat} {st : Z3State maps}
  {m : ZModel} {mapId : Nat} {mapKey : Expr} {k : ZBv} {off : Int} {varOff : Option Expr}
  {vo : Option ZBv} {s a : Nat}

/-- The read of a map value that no hook answers. -/
theorem mapVal_ok (hkey : exprToZ3 R blk st mapKey = .ok k)
    (hvo : optToZ3 R blk st varOff = .ok vo) {block : Nat} {idx : Int} {keyId : Option Int}
    (hR : ∀ R', R = some R' →
      R'.readMap (.mapVal block idx (some mapId) (some mapKey) keyId off varOff s) = .ok none) :
    exprToZ3 R blk st (.mapVal block idx (some mapId) (some mapKey) keyId off varOff s) =
      mapValBytes (.select (st.map mapId).value (resize k (keyBits maps mapId))) off vo s := by
  have hkey' := someToZ3_ok hkey
  unfold exprToZ3
  cases R with
  | none =>
      rw [hkey', hvo]
      rfl
  | some R' =>
      dsimp only
      rw [hR R' rfl, hkey', hvo]
      rfl

/-- The bits that a read takes from the value. -/
theorem eval_mapValBytes {w : Nat} (cur : ZTerm (.bv w)) (hneg : vo = none → 0 ≤ off)
    (hpos : bitPos m w vo off = a * 8) (hin : (a + s) * 8 ≤ w) (hs : 0 < s) :
    ∃ t, mapValBytes cur off vo s = .ok t ∧ t.size = s * 8 ∧
      (resize t (s * 8)).eval m = (cur.eval m).extractLsb' (a * 8) (s * 8) := by
  cases vo with
  | some v =>
      refine ⟨_, rfl, rfl, ?_⟩
      rw [← hpos, ← eval_extractBytesVar cur v off s]
      exact eval_resize_self _
  | none =>
      have hoff : 0 ≤ off := hneg rfl
      have hlow : off.toNat * 8 = a * 8 := hpos
      have hinside : ¬ w ≤ off.toNat * 8 := by omega
      let len := min (off.toNat * 8 + s * 8) w - off.toNat * 8
      refine ⟨⟨s * 8, resize ⟨len, .extract (off.toNat * 8) len cur⟩ (s * 8)⟩, ?_, rfl, ?_⟩
      · simp only [mapValBytes, if_neg (not_lt.mpr hoff), if_neg hinside]
        rfl
      · have hwidth : len = s * 8 := by omega
        rw [eval_resize_self, eval_resize_setWidth, ← hlow]
        show BitVec.setWidth (s * 8) (BitVec.extractLsb' (off.toNat * 8) len (cur.eval m)) = _
        rw [hwidth]
        exact BitVec.setWidth_eq _

theorem mapWrite_ok (hkey : exprToZ3 R blk st mapKey = .ok k)
    (hvo : optToZ3 R blk st varOff = .ok vo) (hneg : vo = none → 0 ≤ off) {value : Expr} {x : ZBv}
    (hx : exprToZ3 R blk st value = .ok x) :
    ∃ st', mapWriteToZ3 R blk st mapId (some mapKey) off s (some value) varOff = .ok st' := by
  unfold mapWriteToZ3
  rw [mapKeyZ3_ok hkey mapId, someToZ3_ok hx, hvo]
  cases vo with
  | some v => exact ⟨_, rfl⟩
  | none =>
      have hoff : ¬ off < 0 := not_lt.mpr (hneg rfl)
      exact ⟨_, if_neg hoff⟩

theorem mapAtomicAdd_ok (hkey : exprToZ3 R blk st mapKey = .ok k)
    (hvo : optToZ3 R blk st varOff = .ok vo)
    (hneg : vo = none → 0 ≤ off ∧ (off.toNat + s) * 8 ≤ valBits maps mapId) (hs : 0 < s)
    {value : Expr} {x : ZBv} (hx : exprToZ3 R blk st value = .ok x) :
    ∃ st', mapAtomicAddToZ3 R blk st mapId (some mapKey) off s (some value) varOff = .ok st' := by
  unfold mapAtomicAddToZ3
  rw [mapKeyZ3_ok hkey mapId, someToZ3_ok hx, hvo]
  cases vo with
  | some v => exact ⟨_, rfl⟩
  | none =>
      obtain ⟨hoff, hin⟩ := hneg rfl
      have hinside : ¬ min ((off.toNat + s) * 8) (valBits maps mapId) ≤ off.toNat * 8 := by omega
      refine ⟨_, (if_neg (not_lt.mpr hoff)).trans (if_neg hinside)⟩

/-- An access whose shift finds the byte `a` acts on the bytes from there on. -/
theorem actsOnBytes (hkey : exprToZ3 R blk st mapKey = .ok k)
    (hentry : isIndexed maps mapId = true →
      inRange maps mapId ((resize k (keyBits maps mapId)).eval m) = true)
    (hvo : optToZ3 R blk st varOff = .ok vo) (hneg : vo = none → 0 ≤ off)
    (hpos : bitPos m (valBits maps mapId) vo off = a * 8) (hin : (a + s) * 8 ≤ valBits maps mapId)
    (hs : 0 < s) : ActsOnBytes R blk st m mapId mapKey k off varOff s a := by
  have hkey' := someToZ3_ok hkey
  have hinside : vo = none → (off.toNat + s) * 8 ≤ valBits maps mapId := by
    rintro rfl
    have hlow : off.toNat * 8 = a * 8 := hpos
    omega
  constructor
  · intro block idx keyId hR
    obtain ⟨t, ht, hsize, heval⟩ := eval_mapValBytes (m := m)
      (.select (st.map mapId).value (resize k (keyBits maps mapId))) hneg hpos hin hs
    refine ⟨t, (mapVal_ok hkey hvo hR).trans ht, hsize, ?_⟩
    rw [heval, Contents.read, contents_value hentry]
    rfl
  · intro value x hx
    obtain ⟨st', hst'⟩ : ∃ st', mapWriteToZ3 R blk st mapId (some mapKey) off s (some value)
        varOff = .ok st' := mapWrite_ok hkey hvo hneg hx
    refine ⟨st', hst', ?_⟩
    obtain ⟨key, vo', x', hk, hv, hx', hpatches⟩ := patches_mapWrite (m := m) hs hst'
    obtain rfl := Except.ok.inj (hkey'.symm.trans hk)
    obtain rfl := Except.ok.inj (hvo.symm.trans hv)
    unfold someToZ3 at hx'
    obtain rfl := Except.ok.inj (hx.symm.trans hx')
    rw [hpatches.contents (fun h => .inl (hinside h)) hentry, hpos]
    rfl
  · intro value x hx
    obtain ⟨st', hst'⟩ : ∃ st', mapAtomicAddToZ3 R blk st mapId (some mapKey) off s (some value)
        varOff = .ok st' := mapAtomicAdd_ok hkey hvo (fun h => ⟨hneg h, hinside h⟩) hs hx
    refine ⟨st', hst', ?_⟩
    obtain ⟨key, vo', x', y, hk, hv, hx', hpatches, hsum⟩ := patches_mapAtomicAdd (m := m) hs hst'
    obtain rfl := Except.ok.inj (hkey'.symm.trans hk)
    obtain rfl := Except.ok.inj (hvo.symm.trans hv)
    unfold someToZ3 at hx'
    obtain rfl := Except.ok.inj (hx.symm.trans hx')
    rw [hpatches.contents (fun h => .inl (hinside h)) hentry, hpos, hsum a hpos hin hentry]
    rfl

end Acts

/-- A hash map with values of `n` bytes. -/
def valuesOf (n : Nat) : List MapInfo := [⟨"values", 1, 4, n, 1⟩]

/-- Every number is `v`, and of every value only the bit `lo` is set. -/
def markedBit (v lo : Nat) : ZModel
  | .bv w, _ => BitVec.ofNat w v
  | .array _ (.bv w), _ => fun _ => BitVec.twoPow w lo
  | s, _ => s.zero

/-- A read that finds the one bit that is set has shifted the value by its place. -/
theorem bitPos_of_read {n s a v : Nat} {off : Int} (hs : 0 < s)
    (hin : a + s ≤ n)
    (h : ActsOnBytes none none (makeInitState (valuesOf n)) (markedBit v (a * 8)) 0 (.num 0 4 (-1))
      ⟨32, bvVal 0 32⟩ off (some (.scalar 8 0)) s a) :
    bitPos (markedBit v (a * 8)) (n * 8) (some ⟨64, .var (.scalar 0) (.bv 64)⟩) off = a * 8 := by
  have hwidth : valBits (valuesOf n) 0 = n * 8 := by
    show max n 1 * 8 = n * 8
    omega
  have hkey : exprToZ3 none none (makeInitState (valuesOf n)) (.num 0 4 (-1)) =
      .ok ⟨32, bvVal 0 32⟩ := rfl
  have hvo : optToZ3 none none (makeInitState (valuesOf n)) (some (.scalar 8 0)) =
      .ok (some ⟨64, .var (.scalar 0) (.bv 64)⟩) := rfl
  obtain ⟨t, ht, -, heval⟩ := h.read 0 0 none nofun
  have hlower : exprToZ3 none none (makeInitState (valuesOf n))
      (.mapVal 0 0 (some 0) (some (.num 0 4 (-1))) none off (some (.scalar 8 0)) s) = _ :=
    mapVal_ok hkey hvo nofun
  obtain rfl := Except.ok.inj (hlower.symm.trans ht)
  -- the read at the variable offset, and the byte that it should be
  have hread := eval_extractBytesVar (m := markedBit v (a * 8))
    (.select ((makeInitState (valuesOf n)).map 0).value
      (resize ⟨32, bvVal 0 32⟩ (keyBits (valuesOf n) 0)))
    ⟨64, .var (.scalar 0) (.bv 64)⟩ off s
  have hfield := hread.symm.trans ((eval_resize_self _).symm.trans heval)
  have hbit : ∀ lo, (BitVec.extractLsb' lo (s * 8)
      (BitVec.twoPow (valBits (valuesOf n) 0) (a * 8))).getLsbD 0 =
      (decide (lo < valBits (valuesOf n) 0) && decide (a * 8 = lo)) := by
    intro lo
    have hpos : 0 < s * 8 := by omega
    rw [BitVec.getLsbD_extractLsb', BitVec.getLsbD_twoPow, Nat.add_zero, decide_eq_true hpos,
      Bool.true_and]
    by_cases heq : a * 8 = lo
    · rw [heq]
    · simp [heq]
  have hsame := congrArg (fun x => BitVec.getLsbD x 0) hfield
  have hleft := hbit (bitPos (markedBit v (a * 8)) (valBits (valuesOf n) 0)
    (some ⟨64, .var (.scalar 0) (.bv 64)⟩) off)
  have hright := hbit (a * 8)
  have hset := hleft.symm.trans (hsame.trans hright)
  rw [hwidth] at hset
  have hmarked : a * 8 < n * 8 := by omega
  simp only [hmarked, decide_true, Bool.and_true, Bool.and_eq_true, decide_eq_true_eq] at hset
  exact hset.2.symm

theorem shiftKept_of_right {n s v : Nat} {off : Int} (hv : v < 2 ^ 64) (hs : 0 < s)
    (hfit : machineOffset off v + s ≤ n) (h : VariableAccessRight n s off v) :
    ShiftKept n off v := by
  have hwidth : valBits (valuesOf n) 0 = n * 8 := by
    show max n 1 * 8 = n * 8
    omega
  have hmark : Bv.toNat (markedBit v (machineOffset off v * 8))
      ⟨64, .var (.scalar 0) (.bv 64)⟩ = v := by
    show (BitVec.ofNat 64 v).toNat = v
    rw [BitVec.toNat_ofNat, Nat.mod_eq_of_lt hv]
  obtain ⟨hacts, -⟩ := h (valuesOf n) none none (makeInitState (valuesOf n))
    (markedBit v (machineOffset off v * 8)) 0 (.num 0 4 (-1)) (.scalar 8 0) _ _ hwidth rfl
    nofun rfl hmark
  have hpos := bitPos_of_read hs hfit hacts
  exact (bitPos_eq_iff hmark hfit hs).mp hpos

theorem right_of_shiftKept {n s v : Nat} {off : Int} (hs : 0 < s)
    (hfit : machineOffset off v + s ≤ n) (hkept : ShiftKept n off v) :
    VariableAccessRight n s off v := by
  intro maps R blk st m mapId mapKey varOff k t hwidth hkey hentry hvar ht
  have hin : (machineOffset off v + s) * 8 ≤ valBits maps mapId := by omega
  have hvo : optToZ3 R blk st (some varOff) = .ok (some t) := by
    unfold optToZ3
    rw [hvar]
    rfl
  have hnone : optToZ3 R blk st none = .ok none := rfl
  have hpos : bitPos m (valBits maps mapId) (some t) off = machineOffset off v * 8 := by
    rw [hwidth]
    exact (bitPos_eq_iff ht hfit hs).mpr hkept
  constructor
  · exact actsOnBytes hkey hentry hvo (fun h => absurd h (Option.some_ne_none t)) hpos hin hs
  · apply actsOnBytes hkey hentry hnone (fun _ => Int.natCast_nonneg _) _ hin hs
    show (machineOffset off v : Int).toNat * 8 = _
    rw [Int.toNat_natCast]

/-- An access to a map value at a variable offset acts on the bytes that the machine's
address names, as the access at that constant offset does, exactly when the value has
at most eight bytes or the shift keeps nothing of what the 64-bit address wraps by. -/
theorem variable_access_iff {n s v : Nat} {off : Int} (hv : v < 2 ^ 64) (hs : 0 < s)
    (hfit : machineOffset off v + s ≤ n) :
    VariableAccessRight n s off v ↔ ShiftKept n off v :=
  ⟨shiftKept_of_right hv hs hfit, right_of_shiftKept hs hfit⟩

/-- A pointer to the byte 12 of a value of 16 bytes, less 8, does not reach the byte 4. -/
theorem variable_access_wraps :
    machineOffset 12 (2 ^ 64 - 8) = 4 ∧ ¬ VariableAccessRight 16 4 12 (2 ^ 64 - 8) := by
  refine ⟨by decide, fun h => ?_⟩
  have hkept := shiftKept_of_right (by decide) (by decide) (by decide) h
  unfold ShiftKept at hkept
  omega

/-- For offsets of ordinary size the condition is that the address does not wrap. -/
theorem shiftKept_iff {n v : Nat} {off : Int} (hv : v < 2 ^ 64) (hoff : -2 ^ 63 ≤ off ∧ off < 2 ^ 63) :
    ShiftKept n off v ↔ n ≤ 8 ∨ (0 ≤ v + off ∧ v + off < 2 ^ 64) := by
  unfold ShiftKept
  by_cases hn : n ≤ 8
  · exact iff_of_true (.inl hn) (.inl hn)
  · obtain ⟨e, he⟩ : ∃ e, 8 * n - 64 = e + 8 := ⟨8 * n - 72, by omega⟩
    have hpow : (256 : Int) ≤ 2 ^ (8 * n - 64) := by
      rw [he, pow_add]
      have hone : (1 : Int) ≤ 2 ^ e := one_le_pow₀ (by decide)
      omega
    have hsmall : ∀ x : Int, -1 ≤ x → x ≤ 1 → (8 * x % 2 ^ (8 * n - 64) = 0 ↔ x = 0) := by
      intro x hlow hhigh
      constructor
      · intro h
        have hdvd := Int.dvd_of_emod_eq_zero h
        by_contra hne
        have hle := Int.le_of_dvd (by omega) ((Int.dvd_natAbs).mpr hdvd)
        omega
      · rintro rfl
        simp
    rw [hsmall _ (by omega) (by omega)]
    omega

theorem variable_access_iff_forward :
    (VariableAccessRight 16 4 8 4 ↔ ShiftKept 16 8 4) ∧ VariableAccessRight 16 4 8 4 := by
  have hright : VariableAccessRight 16 4 8 4 ↔ ShiftKept 16 8 4 :=
    variable_access_iff (by decide) (by decide) (by decide)
  exact ⟨hright, hright.mpr ((shiftKept_iff (by decide) (by decide)).mpr (.inr (by decide)))⟩

end Hornet
