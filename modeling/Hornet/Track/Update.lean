import Hornet.Track.MemoryStep
import Mathlib.Data.Set.Card

/-!
What the kernel makes of an update of a hash map, and which of its outcomes the encoding
admits. A map of the kernel has a fixed number of entries; the encoding counts none.
-/

namespace Hornet

open Smt

section Kernel

variable {maps : List MapInfo}

/-- How many keys of the map are present. -/
noncomputable def Contents.used (c : Contents maps) (mapId : Nat) : Nat :=
  Set.ncard {k | c.present mapId k = true}

/-- The errors of `bpf_map_update_elem`. -/
inductive UpdateError where
  | EEXIST | ENOENT | E2BIG
  deriving DecidableEq, Repr

/-- Why an update of a hash map fails, if it does. -/
def updateError (flags : Int) (present : Bool) (full : Bool) : Option UpdateError :=
  if flags = 1 ∧ present then some .EEXIST
  else if flags = 2 ∧ !present then some .ENOENT
  else if !present ∧ full then some .E2BIG
  else none

/-- `bpf_map_update_elem` on a hash map, which a failure leaves as it is. -/
noncomputable def Contents.kernelUpdate (c : Contents maps) (mapId : Nat)
    (key : BitVec (keyBits maps mapId)) (v : BitVec (valBits maps mapId)) (flags : Int) :
    Contents maps :=
  match updateError flags (c.present mapId key) (maxEntries maps mapId ≤ c.used mapId) with
  | some _ => c
  | none => (c.setPresent mapId key true).setValue mapId key v

/-- `BPF_ANY`, `BPF_NOEXIST` or `BPF_EXIST`. -/
def isUpdateFlag (flags : Int) : Prop := flags = 0 ∨ flags = 1 ∨ flags = 2

/-- When the encoding has the kernel's outcome among its own: the flags are not known, or
the update asks for a present key, or the key is present, or there is room for it. -/
def UpdateAdmitted (c : Contents maps) (mapId : Nat) (key : BitVec (keyBits maps mapId))
    (recorded : Option Int) (flags : Int) : Prop :=
  recorded = none ∨ flags = 2 ∨ c.present mapId key = true ∨ c.used mapId < maxEntries maps mapId

/-- The model with another outcome of the update at `idx`. -/
def withOutcome (m : ZModel) (idx : Int) (o : Bool) : ZModel
  | .bool, .updateApplies i => if i = idx then o else m .bool (.updateApplies i)
  | s, x => m s x

/-- Nothing before the update depends on its outcome. -/
structure OutcomeFresh (m : ZModel) (st : Z3State maps) (k v : ZBv) (idx : Int) : Prop where
  contents : ∀ o, st.contents (withOutcome m idx o) = st.contents m
  key : ∀ o, k.term.eval (withOutcome m idx o) = k.term.eval m
  value : ∀ o, v.term.eval (withOutcome m idx o) = v.term.eval m

variable {c : Contents maps} {mapId : Nat} {key : BitVec (keyBits maps mapId)}
  {v : BitVec (valBits maps mapId)} {flags : Int} {recorded : Option Int}

theorem setPresent_setValue_ne (habsent : c.present mapId key = false) :
    (c.setPresent mapId key true).setValue mapId key v ≠ c := by
  intro h
  have hpresent := congrArg (fun c => Contents.present c mapId key) h
  simp [Contents.setValue, Contents.setPresent, habsent] at hpresent

/-- The update of the encoding for a hash map, when it takes effect and when not. -/
theorem encodedUpdate_hash (hhash : isHashMap maps mapId = true) (outcome : Bool) :
    encodedUpdate c mapId key v recorded outcome =
      if Contents.ruleApplies recorded outcome (c.present mapId key) then
        (c.setPresent mapId key true).setValue mapId key v
      else c := by
  have hplain := not_indexed_of_hash hhash
  simp [encodedUpdate, hhash, hplain]

/-- The flags decide alone what the encoding does, so it is the kernel's outcome exactly
when the flags or the space do not make the kernel refuse a new key. -/
theorem outcome_iff (hhash : isHashMap maps mapId = true) (hflags : isUpdateFlag flags)
    (hrecorded : recorded = none ∨ recorded = some flags) :
    (∃ o, encodedUpdate c mapId key v recorded o = c.kernelUpdate mapId key v flags) ↔
      UpdateAdmitted c mapId key recorded flags := by
  simp only [encodedUpdate_hash hhash]
  unfold UpdateAdmitted Contents.kernelUpdate
  rcases hrecorded with rfl | rfl
  · -- with unknown flags the outcome variable says what happens
    have hboth : ∃ o : Bool, (if o = true then (c.setPresent mapId key true).setValue mapId key v
        else c) = match updateError flags (c.present mapId key)
            (maxEntries maps mapId ≤ c.used mapId) with
          | some _ => c
          | none => (c.setPresent mapId key true).setValue mapId key v := by
      cases updateError flags (c.present mapId key) (maxEntries maps mapId ≤ c.used mapId) with
      | some e => exact ⟨false, rfl⟩
      | none => exact ⟨true, rfl⟩
    exact iff_of_true hboth (.inl rfl)
  · have hne : c.present mapId key = false →
        (c.setPresent mapId key true).setValue mapId key v ≠ c := setPresent_setValue_ne
    cases hpresent : c.present mapId key with
    | true =>
        rcases hflags with rfl | rfl | rfl <;>
          simp [Contents.ruleApplies, updateError]
    | false =>
        have hchanged := hne hpresent
        by_cases hfull : maxEntries maps mapId ≤ c.used mapId
        · have hroom : ¬ c.used mapId < maxEntries maps mapId := by omega
          rcases hflags with rfl | rfl | rfl <;>
            simp [Contents.ruleApplies, updateError, hfull, hroom, hchanged]
        · have hroom : c.used mapId < maxEntries maps mapId := by omega
          rcases hflags with rfl | rfl | rfl <;>
            simp [Contents.ruleApplies, updateError, hfull, hroom]

end Kernel

section Encoding

variable {maps : List MapInfo} {R : Option (Reads maps)} {blk : Option Nat} {st : Z3State maps}
  {m : ZModel} {mapId : Nat} {mapKey value : Expr} {k v : ZBv} {recorded : Option Int} {idx : Int}

theorem mapUpdate_ok (hk : exprToZ3 R blk st mapKey = .ok k)
    (hv : exprToZ3 R blk st value = .ok v) :
    ∃ st', mapUpdateToZ3 R blk st mapId (some mapKey) (some value) recorded idx = .ok st' := by
  unfold mapUpdateToZ3
  rw [mapKeyZ3_ok hk mapId, someToZ3_ok hv]
  dsimp only [bind, Except.bind]
  split
  · exact ⟨_, rfl⟩
  · exact ⟨_, rfl⟩
  · exact ⟨_, rfl⟩

/-- The states that the outcomes of the update lead to. -/
theorem contents_outcome {st' : Z3State maps} (hk : exprToZ3 R blk st mapKey = .ok k)
    (hv : exprToZ3 R blk st value = .ok v) (hfresh : OutcomeFresh m st k v idx)
    (h : mapUpdateToZ3 R blk st mapId (some mapKey) (some value) recorded idx = .ok st') (o : Bool) :
    st'.contents (withOutcome m idx o) =
      encodedUpdate (st.contents m) mapId ((resize k (keyBits maps mapId)).eval m)
        ((resize v (valBits maps mapId)).eval m) recorded o := by
  obtain ⟨k', v', hk', hv', hcontents⟩ := contents_mapUpdate (m := withOutcome m idx o) h
  obtain rfl := Except.ok.inj (hk.symm.trans hk')
  obtain rfl := Except.ok.inj (hv.symm.trans hv')
  have houtcome : withOutcome m idx o .bool (.updateApplies idx) = o := if_pos rfl
  rw [hcontents, hfresh.contents, houtcome, eval_resize_setWidth, eval_resize_setWidth,
    hfresh.key, hfresh.value, ← eval_resize_setWidth, ← eval_resize_setWidth]

/-- An update of a hash map that is not LRU has the kernel's outcome among those of the
encoding exactly when its flags are not known, or it asks for a present key, or the key
is present, or the map is not full. -/
theorem update_outcome_iff {info : MapInfo} (hinfo : maps[mapId]? = some info)
    (htype : info.type = 1 ∨ info.type = 5) {flags : Int} (hflags : isUpdateFlag flags)
    (hrecorded : recorded = none ∨ recorded = some flags)
    (hk : exprToZ3 R blk st mapKey = .ok k) (hv : exprToZ3 R blk st value = .ok v)
    (hfresh : OutcomeFresh m st k v idx) :
    ∃ st', mapUpdateToZ3 R blk st mapId (some mapKey) (some value) recorded idx = .ok st' ∧
      ((∃ o, st'.contents (withOutcome m idx o) =
          (st.contents m).kernelUpdate mapId ((resize k (keyBits maps mapId)).eval m)
            ((resize v (valBits maps mapId)).eval m) flags) ↔
        UpdateAdmitted (st.contents m) mapId ((resize k (keyBits maps mapId)).eval m)
          recorded flags) := by
  obtain ⟨st', hst'⟩ : ∃ st', mapUpdateToZ3 R blk st mapId (some mapKey) (some value) recorded idx =
      .ok st' := mapUpdate_ok hk hv
  have hhash : isHashMap maps mapId = true := by
    rcases htype with htype | htype <;> simp [isHashMap, mapTypeIn, hinfo, htype, HASH_MAP_TYPES]
  refine ⟨st', hst', ?_⟩
  simp only [contents_outcome hk hv hfresh hst']
  exact outcome_iff hhash hflags hrecorded

end Encoding

/-- A hash map with one entry. -/
def oneEntry : List MapInfo := [⟨"one", 1, 4, 4, 1⟩]

/-- The key 5 is present. -/
def fivePresent : ZModel
  | .array d .bool, _ => fun k => k == BitVec.ofNat d 5
  | s, _ => s.zero

theorem used_oneEntry : ((makeInitState oneEntry).contents fivePresent).used 0 = 1 := by
  apply Set.ncard_eq_one.mpr
  have hpresent : ∀ k : BitVec 32, (k == 5#32) = true ↔ k = 5#32 := fun k => beq_iff_eq
  exact ⟨5#32, Set.ext hpresent⟩

theorem outcomeFresh_oneEntry (n : Int) :
    OutcomeFresh fivePresent (makeInitState oneEntry) ⟨32, bvVal n 32⟩ ⟨32, bvVal 1 32⟩ 7 := by
  constructor
  · intro o
    have hbss : ∀ key, (bssOf (makeInitState oneEntry) key).eval (withOutcome fivePresent 7 o) =
        (bssOf (makeInitState oneEntry) key).eval fivePresent := by
      intro key
      cases key <;> rfl
    exact Contents.ext rfl rfl rfl (funext hbss)
  · exact fun _ => rfl
  · exact fun _ => rfl

/-- The kernel refuses a second key, but the encoding always stores it. -/
theorem full_map_update :
    ((makeInitState oneEntry).contents fivePresent).used 0 = maxEntries oneEntry 0 ∧
      ∃ st', mapUpdateToZ3 none none (makeInitState oneEntry) 0 (some (.num 6 4 (-1)))
          (some (.num 1 4 (-1))) (some 0) 7 = .ok st' ∧
        ¬ ∃ o, st'.contents (withOutcome fivePresent 7 o) =
          ((makeInitState oneEntry).contents fivePresent).kernelUpdate 0 6#32 1#32 0 := by
  have hk : exprToZ3 none none (makeInitState oneEntry) (.num 6 4 (-1)) = .ok ⟨32, bvVal 6 32⟩ := rfl
  have hv : exprToZ3 none none (makeInitState oneEntry) (.num 1 4 (-1)) = .ok ⟨32, bvVal 1 32⟩ := rfl
  obtain ⟨st', hst'⟩ : ∃ st', mapUpdateToZ3 none none (makeInitState oneEntry) 0
      (some (.num 6 4 (-1))) (some (.num 1 4 (-1))) (some 0) 7 = .ok st' := mapUpdate_ok hk hv
  refine ⟨used_oneEntry, st', hst', ?_⟩
  rintro ⟨o, ho⟩
  rw [contents_outcome hk hv (outcomeFresh_oneEntry 6) hst' o] at ho
  have hadmitted := (outcome_iff rfl (.inl rfl) (.inr rfl)).mp ⟨o, ho⟩
  rcases hadmitted with h | h | h | h
  · cases h
  · cases h
  · cases h
  · rw [used_oneEntry] at h
    exact absurd h (by decide)

theorem update_outcome_iff_present :
    ∃ st', mapUpdateToZ3 none none (makeInitState oneEntry) 0 (some (.num 5 4 (-1)))
        (some (.num 1 4 (-1))) (some 0) 7 = .ok st' ∧
      ((∃ o, st'.contents (withOutcome fivePresent 7 o) =
          ((makeInitState oneEntry).contents fivePresent).kernelUpdate 0
            ((resize ⟨32, bvVal 5 32⟩ (keyBits oneEntry 0)).eval fivePresent)
            ((resize ⟨32, bvVal 1 32⟩ (valBits oneEntry 0)).eval fivePresent) 0) ↔
        UpdateAdmitted ((makeInitState oneEntry).contents fivePresent) 0
          ((resize ⟨32, bvVal 5 32⟩ (keyBits oneEntry 0)).eval fivePresent) (some 0) 0) := by
  have hk : exprToZ3 none none (makeInitState oneEntry) (.num 5 4 (-1)) = .ok ⟨32, bvVal 5 32⟩ := rfl
  have hv : exprToZ3 none none (makeInitState oneEntry) (.num 1 4 (-1)) = .ok ⟨32, bvVal 1 32⟩ := rfl
  exact update_outcome_iff rfl (.inl rfl) (.inl rfl) (.inr rfl) hk hv (outcomeFresh_oneEntry 5)

end Hornet
