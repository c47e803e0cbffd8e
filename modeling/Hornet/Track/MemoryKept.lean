import Hornet.Track.MemoryStep

/-!
No accepted instruction drops what it does to memory, save in the cases that
`MemoryOp.Accounted` leaves out.
-/

namespace Hornet

open Smt

section Kept

variable {maps : List MapInfo} {R : Option (Reads maps)} {blk : Option Nat} {st st' : Z3State maps}
  {m : ZModel} {num : Nat} {idx : Int}

/-- A field of a map value is written where the machine writes it, or both change nothing. -/
theorem value_kept {p : PTR Expr} {addr : Int} {n mapId off : Nat} {key : ZBv} {vo : Option ZBv}
    {x y : BitVec (n * 8)} (hn : 0 < n) (hpatches : Patches m st st' mapId key vo addr n x)
    (hvo : optToZ3 R blk st p.varOff = .ok vo)
    (hoff : (off : Int) = (varDist m vo + addr) % 2 ^ 64) (hin : (off + n) * 8 ≤ valBits maps mapId)
    (hsize : valBits maps mapId < 2 ^ 35)
    (hentry : isIndexed maps mapId = true →
      inRange maps mapId ((resize key (keyBits maps mapId)).eval m) = true)
    (hxy : bitPos m (valBits maps mapId) vo addr = off * 8 → x = y) :
    st'.contents m = (st.contents m).write y
        (.value mapId ((resize key (keyBits maps mapId)).eval m) off) ↔
      Lands R blk st m p addr (.value mapId ((resize key (keyBits maps mapId)).eval m) off) ∨
        (st.contents m).write y (.value mapId ((resize key (keyBits maps mapId)).eval m) off) =
          st.contents m := by
  obtain ⟨hplace, hfinds⟩ := bitPos_iff (m := m) hpatches.nonneg hoff hin hn hsize
  have hinside : vo = none → (addr.toNat + n) * 8 ≤ valBits maps mapId ∨
      valBits maps mapId ≤ addr.toNat * 8 := by
    intro hnone
    have haddr := hpatches.nonneg hnone
    subst hnone
    simp only [varDist, Option.map_none, Option.getD_none] at hoff
    omega
  have hlands : Lands R blk st m p addr (.value mapId ((resize key (keyBits maps mapId)).eval m) off) ↔
      bitPos m (valBits maps mapId) vo addr = off * 8 := by
    rw [hfinds]
    constructor
    · exact fun h => h vo hvo
    · intro h vo' hvo'
      cases hvo.symm.trans hvo'
      exact h
  rw [hpatches.contents hinside hentry, hlands]
  exact patched_iff hplace hxy

theorem store_kept {p : PTR Expr} {addr : Int} {n : Nat} {value : Option Expr} {place : Place maps}
    {v : ZBv} (hn : 0 < n ∧ n ≤ 8) (hmap : p.ptrType = .MAP_VALUE → p.mapId.isSome)
    (h : Event.toZ3 R blk st ⟨num, idx, storeAction p addr n value⟩ = .ok st')
    (hp : PointsTo R blk st m p addr n place) (hv : someToZ3 R blk st value = .ok v) :
    st'.contents m = (st.contents m).write ((resize v (n * 8)).eval m) place ↔
      Lands R blk st m p addr place ∨
        (st.contents m).write ((resize v (n * 8)).eval m) place = st.contents m := by
  cases hp with
  | pkt htype hvo =>
      simp only [storeAction, htype, Event.toZ3] at h
      obtain ⟨vo', v', hvo', hv', hcontents⟩ := contents_pktWrite (m := m) hn.2 h
      cases hvo.symm.trans hvo'
      cases hv.symm.trans hv'
      exact iff_of_true hcontents (.inl trivial)
  | @value mapId off key vo htype hid hkey hvo hoff hin hsize hentry =>
      obtain ⟨id, hsome⟩ := Option.isSome_iff_exists.mp (hmap htype)
      obtain rfl := hid id hsome
      simp only [storeAction, htype, hsome, Event.toZ3] at h
      obtain ⟨key', vo', v', hkey', hvo', hv', hpatches⟩ := patches_mapWrite (m := m) hn.1 h
      cases hvo.symm.trans hvo'
      cases hv.symm.trans hv'
      cases hkey.symm.trans hkey'
      exact value_kept hn.1 hpatches hvo hoff hin hsize hentry fun _ => rfl
  | bss htype hvo =>
      simp only [storeAction, htype] at h
      cases hsymbol : p.bssIdx with
      | none =>
          rw [hsymbol] at h
          cases h
          constructor
          · exact fun heq => .inr heq.symm
          · rintro (hlands | heq)
            · cases hlands
            · exact heq.symm
      | some key =>
          rw [hsymbol] at h
          obtain ⟨vo', v', hvo', hv', hcontents⟩ := contents_bssWrite (m := m) hn.1 hn.2 h
          cases hvo.symm.trans hvo'
          cases hv.symm.trans hv'
          exact iff_of_true hcontents (.inl rfl)

theorem add_kept {p : PTR Expr} {addr : Int} {n : Nat} {value : Option Expr} {place : Place maps}
    {v : ZBv} {a : Action} (hR : Rereads R) (hn : n = 1 ∨ n = 2 ∨ n = 4 ∨ n = 8)
    (hmap : p.ptrType = .MAP_VALUE → p.mapId.isSome)
    (ha : Records (.atomicAdd p addr n value) [a])
    (h : Event.toZ3 R blk st ⟨num, idx, a⟩ = .ok st')
    (hp : PointsTo R blk st m p addr n place) (hv : someToZ3 R blk st value = .ok v) :
    st'.contents m =
        (st.contents m).write ((st.contents m).read n place + (resize v (n * 8)).eval m) place ↔
      Lands R blk st m p addr place ∨
        (st.contents m).write ((st.contents m).read n place + (resize v (n * 8)).eval m) place =
          st.contents m := by
  have hpos : 0 < n := by omega
  cases ha with
  | addValue htype _ _ _ old =>
      cases hp with
      | pkt htype' => rw [htype] at htype'; cases htype'
      | bss htype' => rw [htype] at htype'; cases htype'
      | @value mapId off key vo _ hid hkey hvo hoff hin hsize hentry =>
          obtain ⟨id, hsome⟩ := Option.isSome_iff_exists.mp (hmap htype)
          obtain rfl := hid id hsome
          simp only [hsome, Event.toZ3] at h
          obtain ⟨key', vo', v', x, hkey', hvo', hv', hpatches, hx⟩ :=
            patches_mapAtomicAdd (m := m) hpos h
          cases hvo.symm.trans hvo'
          cases hv.symm.trans hv'
          cases hkey.symm.trans hkey'
          exact value_kept hpos hpatches hvo hoff hin hsize hentry fun hpos' =>
            hx off hpos' hin hentry
  | addBss htype _ _ _ old =>
      cases hp with
      | pkt htype' => rw [htype] at htype'; cases htype'
      | value htype' => rw [htype] at htype'; cases htype'
      | bss _ hvo =>
          cases hsymbol : p.bssIdx with
          | none =>
              rw [hsymbol] at h
              cases h
              constructor
              · exact fun heq => .inr heq.symm
              · rintro (hlands | heq)
                · cases hlands
                · exact heq.symm
          | some key =>
              rw [hsymbol] at h
              obtain ⟨vo', v', hvo', hv', hcontents⟩ := contents_bssAtomicAdd (m := m) hR hn h
              cases hvo.symm.trans hvo'
              cases hv.symm.trans hv'
              exact iff_of_true hcontents (.inl rfl)

theorem setPresent_eq_self_iff {c : Contents maps} {mapId : Nat} {k : BitVec (keyBits maps mapId)}
    {b : Bool} : c.setPresent mapId k b = c ↔ c.present mapId k = b := by
  constructor
  · intro h
    have hpresent := congrFun (congrFun (congrArg Contents.present h) mapId) k
    simpa [Contents.setPresent] using hpresent.symm
  · intro h
    rw [← h, setPresent_self]

theorem setValue_inj {c c' : Contents maps} {mapId : Nat} {k : BitVec (keyBits maps mapId)}
    {v : BitVec (valBits maps mapId)} (hvalue : c.value = c'.value) :
    c.setValue mapId k v = c'.setValue mapId k v ↔ c = c' := by
  constructor
  · intro h
    have hpkt := congrArg Contents.pkt h
    have hpresent := congrArg Contents.present h
    have hbss := congrArg Contents.bss h
    exact Contents.ext hpkt hpresent hvalue hbss
  · exact fun h => h ▸ rfl

/-- The encoding of an update is the machine's exactly when the map keeps its keys in the
presence array, or the key is there already, or nothing is updated. -/
theorem encodedUpdate_iff {c : Contents maps} {mapId : Nat} {k : BitVec (keyBits maps mapId)}
    {v : BitVec (valBits maps mapId)} {flags : Option Int} {outcome : Bool} :
    encodedUpdate c mapId k v flags outcome = c.update mapId k v flags outcome ↔
      isHashMap maps mapId = true ∨ isIndexed maps mapId = true ∨ c.present mapId k = true ∨
        Contents.ruleApplies flags outcome (c.present mapId k) = false := by
  unfold encodedUpdate Contents.update
  dsimp only
  by_cases happlied : (Contents.ruleApplies flags outcome (c.present mapId k) &&
      (c.present mapId k || !isIndexed maps mapId)) = true
  · rw [if_pos happlied, if_pos happlied]
    rw [Bool.and_eq_true] at happlied
    by_cases hhash : isHashMap maps mapId = true
    · rw [if_pos hhash]
      exact iff_of_true rfl (.inl hhash)
    · rw [if_neg hhash, setValue_inj (by rfl), eq_comm, setPresent_eq_self_iff]
      constructor
      · exact fun hpresent => .inr (.inr (.inl hpresent))
      · rintro (hh | hindexed | hpresent | hrule)
        · exact absurd hh hhash
        · simpa [hindexed] using happlied.2
        · exact hpresent
        · rw [hrule] at happlied
          cases happlied.1
  · rw [if_neg happlied, if_neg happlied]
    refine iff_of_true rfl ?_
    by_cases hindexed : isIndexed maps mapId = true
    · exact .inr (.inl hindexed)
    · refine .inr (.inr (.inr ?_))
      simpa [hindexed] using happlied

theorem encodedDelete_iff {c : Contents maps} {mapId : Nat} {k : BitVec (keyBits maps mapId)} :
    (if isHashMap maps mapId then c.setPresent mapId k false else c) = c.delete mapId k ↔
      isHashMap maps mapId = true ∨ isIndexed maps mapId = true ∨ c.present mapId k = false := by
  unfold Contents.delete
  by_cases hhash : isHashMap maps mapId = true
  · rw [if_pos hhash, not_indexed_of_hash hhash]
    exact iff_of_true rfl (.inl hhash)
  · rw [if_neg hhash]
    by_cases hindexed : isIndexed maps mapId = true
    · rw [if_pos hindexed]
      exact iff_of_true rfl (.inr (.inl hindexed))
    · rw [if_neg hindexed, eq_comm, setPresent_eq_self_iff]
      simp [hhash, hindexed]

/-- The rule of the tracker's flags is that of the machine's. -/
theorem ruleApplies_known {flags : Option Int} {f : Int} {outcome present : Bool}
    (hknown : ∀ f', flags = some f' → f' = f)
    (houtcome : flags = none → outcome = Contents.ruleApplies (some f) false present) :
    Contents.ruleApplies flags outcome present = Contents.ruleApplies (some f) false present := by
  cases flags with
  | none => exact houtcome rfl
  | some f' =>
      obtain rfl := hknown f' rfl
      rfl

theorem encodedUpdate_known {c : Contents maps} {mapId : Nat} {k : BitVec (keyBits maps mapId)}
    {v : BitVec (valBits maps mapId)} {flags : Option Int} {f : Int} {outcome : Bool}
    (hrule : Contents.ruleApplies flags outcome (c.present mapId k) =
      Contents.ruleApplies (some f) false (c.present mapId k)) :
    encodedUpdate c mapId k v flags outcome = encodedUpdate c mapId k v (some f) false := by
  unfold encodedUpdate
  dsimp only
  rw [hrule]

/-- Another memory with the same packet and `.bss` contents. -/
theorem exists_other_maps (c : Contents maps) :
    ∃ c' : Contents maps, c'.pkt = c.pkt ∧ c'.bss = c.bss ∧ c ≠ c' := by
  refine ⟨{ c with present := fun id k => !c.present id k }, rfl, rfl, fun h => ?_⟩
  have hpresent := congrFun (congrFun (congrArg Contents.present h) 0) 0
  simp at hpresent

end Kept

/-- An instruction that can change packet, map or `.bss` contents, if it is a store to the
right place. -/
def canChangeMemory (instr : Instr) : Prop :=
  instr.isStore = true ∨ callsHelper instr 2 ∨ callsHelper instr 3 ∨
    (instr.isCall = true ∧ instr.srcReg ≠ 0)

/-- A store to the stack or to the context. -/
def storesElsewhere (instr : Instr) (b : Block) : Prop :=
  instr.isStore = true ∧ ∃ p, b.reg instr.dstReg = some (.ptr p) ∧
    (p.ptrType = .STK ∨ p.ptrType = .CTX)

section Steps

variable {P : Program} {blocks : List Block} {b b' : Block} {idx : Nat} {instr : Instr}

theorem performs_of_store {maps : List MapInfo} (hstore : instr.isStore = true)
    (h : trackStore idx instr b = .ok b') :
    storesElsewhere instr b ∨ ∃ op, Performs maps idx instr b op := by
  have helsewhere : ∀ p, b.reg instr.dstReg = some (.ptr p) → p.ptrType = .STK ∨ p.ptrType = .CTX →
      storesElsewhere instr b ∨ ∃ op, Performs maps idx instr b op :=
    fun p hp htype => .inl ⟨hstore, p, hp, htype⟩
  unfold trackStore at h
  dsimp only at h
  split at h
  · cases h
  · cases h
  · rename_i hmode
    split at h
    · rename_i p hp
      have hmem : p.isMemory = true → ∃ op, Performs maps idx instr b op :=
        fun hmem => ⟨_, .store hstore (by simp [hmode]) hp hmem⟩
      unfold store at h
      split at h
      · cases h
      · dsimp only at h
        split at h
        · exact helsewhere p hp (.inl ‹_›)
        · exact helsewhere p hp (.inr ‹_›)
        · rename_i htype
          exact .inr (hmem (by simp [PTR.isMemory, htype]))
        · rename_i htype
          exact .inr (hmem (by simp [PTR.isMemory, htype]))
        · rename_i htype
          exact .inr (hmem (by simp [PTR.isMemory, htype]))
        · cases h
    · cases h
  · rename_i hmode
    split at h
    · cases h
    · split at h
      · rename_i p hp
        split at h
        · exact helsewhere p hp (.inl ‹_›)
        · split at h
          · rename_i htype
            have hmem : p.isMemory = true := by
              simp only [PTR.isMemory, Bool.or_assoc]
              simp [htype]
            exact .inr ⟨_, .atomicAdd hstore hmode hp hmem⟩
          · cases h
      · cases h
  · cases h

theorem mapInfo_eq_ok {maps : List MapInfo} {mapId : Option Nat} {info : MapInfo}
    (h : mapInfo maps mapId = .ok info) : ∃ id, mapId = some id ∧ maps[id]? = some info := by
  unfold mapInfo at h
  split at h
  · rename_i info' hinfo
    cases h
    exact Option.bind_eq_some_iff.mp hinfo
  · cases h

theorem performs_of_mapUpdate {maps : List MapInfo} (hcall : callsHelper instr 2)
    (h : mapUpdate maps idx b = .ok b') : ∃ op, Performs maps idx instr b op := by
  unfold mapUpdate at h
  split at h
  · rename_i hmap hkp hvp
    obtain ⟨info, hlookup, h⟩ := Lib.bind_eq_ok.mp h
    obtain ⟨id, hid, hinfo⟩ := mapInfo_eq_ok hlookup
    obtain ⟨⟨key, b₁⟩, hkey, h⟩ := Lib.bind_eq_ok.mp h
    obtain ⟨⟨value, b₂⟩, hvalue, h⟩ := Lib.bind_eq_ok.mp h
    exact ⟨_, .mapUpdate hcall hmap hid hinfo hkp hkey hvp hvalue⟩
  · rename_i hnone
    refine ⟨_, .updateUnknown hcall ?_⟩
    by_contra hall
    simp only [not_or, ← ne_eq, Option.ne_none_iff_exists'] at hall
    obtain ⟨⟨map, hmap⟩, ⟨kp, hkp⟩, ⟨vp, hvp⟩⟩ := hall
    exact hnone map kp vp hmap hkp hvp

theorem performs_of_mapDelete {maps : List MapInfo} (hcall : callsHelper instr 3)
    (h : mapDelete maps idx b = .ok b') : ∃ op, Performs maps idx instr b op := by
  unfold mapDelete at h
  split at h
  · rename_i hmap hkp
    obtain ⟨info, hlookup, h⟩ := Lib.bind_eq_ok.mp h
    obtain ⟨id, hid, hinfo⟩ := mapInfo_eq_ok hlookup
    obtain ⟨⟨key, b₁⟩, hkey, h⟩ := Lib.bind_eq_ok.mp h
    exact ⟨_, .mapDelete hcall hmap hid hinfo hkp hkey⟩
  · rename_i hnone
    refine ⟨_, .deleteUnknown hcall ?_⟩
    by_contra hall
    simp only [not_or, ← ne_eq, Option.ne_none_iff_exists'] at hall
    obtain ⟨⟨map, hmap⟩, ⟨kp, hkp⟩⟩ := hall
    exact hnone map kp hmap hkp

/-- Every accepted instruction that can change memory is one of those above. -/
theorem performs_of_accepted (hinstr : P.instrs[idx]? = some instr) (hmem : canChangeMemory instr)
    (h : trackInstr P blocks b idx = .ok b') :
    storesElsewhere instr b ∨ ∃ op, Performs P.maps idx instr { b with idx := idx } op := by
  rcases hmem with hstore | hcall | hcall | ⟨hcall, hsrc⟩
  · exact performs_of_store hstore (trackInstr_store hinstr hstore h)
  · obtain ⟨b₁, hhelper, -⟩ := trackCall_helper hcall (trackInstr_call hinstr hcall.1 h)
    cases helperCall_step hhelper with
    | mapUpdate hstep => exact .inr (performs_of_mapUpdate hcall hstep)
    | named himm => exact absurd rfl himm.2.1
  · obtain ⟨b₁, hhelper, -⟩ := trackCall_helper hcall (trackInstr_call hinstr hcall.1 h)
    cases helperCall_step hhelper with
    | mapDelete hstep => exact .inr (performs_of_mapDelete hcall hstep)
    | named himm => exact absurd rfl himm.2.2
  · exact .inr ⟨_, .call hcall hsrc⟩

end Steps

section Effect

variable {maps : List MapInfo} {R : Option (Reads maps)} {blk : Option Nat} {st st' : Z3State maps}
  {m : ZModel}

/-- The memory after the actions of an instruction, against what the machine makes of it. -/
theorem kept_iff_of_records {op : MemoryOp} {mop : MachineOp maps} {as : List Action}
    (hR : Rereads R)
    (hsize : ∀ p addr n value, op = .store p addr n value ∨ op = .atomicAdd p addr n value →
      (n = 1 ∨ n = 2 ∨ n = 4 ∨ n = 8) ∧ (p.ptrType = .MAP_VALUE → p.mapId.isSome))
    (hrecords : Records op as) (num : Nat) (idx : Int)
    (h : (as.map fun a => (⟨num, idx, a⟩ : Event)).foldlM (fun st e => e.toZ3 R blk st) st = .ok st')
    (hmatch : Matches R blk st m idx (st.contents m) op mop) :
    (∀ c, mop.Leaves (st.contents m) c → st'.contents m = c) ↔
      op.Accounted R blk st m (st.contents m) mop := by
  have hone : ∀ a, as = [a] → Event.toZ3 R blk st ⟨num, idx, a⟩ = .ok st' := by
    intro a ha
    simpa [ha] using h
  cases hmatch with
  | @store p addr n value place v x hp hv hx =>
      obtain ⟨hn, hmap⟩ := hsize p addr n value (.inl rfl)
      obtain rfl := hx
      cases hrecords with | store =>
      have hkept := store_kept (by omega) hmap (hone _ rfl) hp hv
      exact ⟨fun hall => hkept.mp (hall _ (.store _ _)), fun hacc c hc => by
        cases hc
        exact hkept.mpr hacc⟩
  | @atomicAdd p addr n value place v x hp hv hx =>
      obtain ⟨hn, hmap⟩ := hsize p addr n value (.inr rfl)
      obtain rfl := hx
      obtain ⟨a, ha⟩ : ∃ a, as = [a] := by cases hrecords <;> exact ⟨_, rfl⟩
      have hkept := add_kept hR hn hmap (ha ▸ hrecords) (hone a ha) hp hv
      exact ⟨fun hall => hkept.mp (hall _ (.atomicAdd _ _)), fun hacc c hc => by
        cases hc
        exact hkept.mpr hacc⟩
  | @mapUpdate mapId key value flags f k v x y hk hx hv hy hknown houtcome =>
      cases hrecords with | mapUpdate _ _ _ _ size =>
      obtain ⟨k', v', hk', hv', hcontents⟩ := contents_mapUpdate (m := m) (hone _ rfl)
      cases hk.symm.trans hk'
      cases hv.symm.trans hv'
      have hrule := ruleApplies_known hknown houtcome
      rw [hx, hy] at hcontents
      rw [encodedUpdate_known hrule] at hcontents
      have hkept : st'.contents m = (st.contents m).update mapId x y (some f) false ↔ _ :=
        hcontents ▸ encodedUpdate_iff
      exact ⟨fun hall => hkept.mp (hall _ (.mapUpdate ..)), fun hacc c hc => by
        cases hc
        exact hkept.mpr hacc⟩
  | @mapDelete mapId key k x hk hx =>
      cases hrecords with | mapDelete =>
      have hcontents := contents_mapDelete (m := m) (hone _ rfl) k hk
      rw [hx] at hcontents
      have hkept : st'.contents m = (st.contents m).delete mapId x ↔ _ :=
        hcontents ▸ encodedDelete_iff
      exact ⟨fun hall => hkept.mp (hall _ (.mapDelete ..)), fun hacc c hc => by
        cases hc
        exact hkept.mpr hacc⟩
  | mapUnknown =>
      cases hrecords
      cases h
      obtain ⟨c', hpkt, hbss, hne⟩ := exists_other_maps (st.contents m)
      exact iff_of_false (fun hall => hne (hall c' (.mapUnknown hpkt hbss))) id
  | call =>
      cases hrecords
      cases h
      obtain ⟨c', -, -, hne⟩ := exists_other_maps (st.contents m)
      exact iff_of_false (fun hall => hne (hall c' (.call _))) id

end Effect

section Accepted

variable {P : Program} {cfg blocks : List Block} {b b' : Block} {idx : Nat} {instr : Instr}

/-- Where its operands have the machine's values in the state that it finds, the actions of
an accepted instruction do what the machine does exactly when the encoding accounts for it. -/
theorem kept_iff_of_performs {op : MemoryOp} {mop : MachineOp P.maps} {R : Option (Reads P.maps)}
    {blk : Option Nat} {st st' : Z3State P.maps} {m : ZModel}
    (hcfg : buildCfg P.instrs P.progs = .ok cfg) (hb : TrackPoint P cfg b)
    (hinstr : P.instrs[idx]? = some instr) (hstep : trackInstr P blocks b idx = .ok b')
    (hop : Performs P.maps idx instr { b with idx := idx } op) (hR : Rereads R)
    (happly : (b'.actions.drop b.actions.length).foldlM (fun st e => e.toZ3 R blk st) st = .ok st')
    (hmatch : Matches R blk st m idx (st.contents m) op mop) :
    (∀ c, mop.Leaves (st.contents m) c → st'.contents m = c) ↔
      op.Accounted R blk st m (st.contents m) mop := by
  obtain ⟨as, hrecords, hactions⟩ := records_of_performs hinstr hop hstep
  rw [hactions, List.drop_left] at happly
  refine kept_iff_of_records hR (fun p addr n value hcase => ?_) hrecords b.num idx happly hmatch
  have hsized := hb.sized (blank_buildCfg hcfg)
  cases hop with
  | store hstore hmode hdst hp =>
      obtain ⟨⟨⟩⟩ | ⟨⟨⟩⟩ := hcase
      have hptr : (Expr.ptr p).slotSized := hsized.reg hdst
      exact ⟨szMap_cases _, hptr.mapId⟩
  | atomicAdd hstore hmode hdst hp =>
      obtain ⟨⟨⟩⟩ | ⟨⟨⟩⟩ := hcase
      have hptr : (Expr.ptr p).slotSized := hsized.reg hdst
      exact ⟨szMap_cases _, hptr.mapId⟩
  | mapUpdate => rcases hcase with h | h <;> cases h
  | mapDelete => rcases hcase with h | h <;> cases h
  | updateUnknown => rcases hcase with h | h <;> cases h
  | deleteUnknown => rcases hcase with h | h <;> cases h
  | call => rcases hcase with h | h <;> cases h

end Accepted

/-- `r2 = ctx->data; *(u8 *)(r2 + 0) = 7; exit` -/
def byteProgram : Program :=
  { instrs := [
      { opcodeClass := .LDX, opcodeS := .imm, aluCode := .ADD, jmpCode := .JA, opcodeSz := .W
        opcodeMode := .MEM, srcReg := 1, dstReg := 2, offset := 0, imm := 0, wideInstr := false
        nextImm := 0, reloc := none },
      { opcodeClass := .ST, opcodeS := .imm, aluCode := .ADD, jmpCode := .JA, opcodeSz := .B
        opcodeMode := .MEM, srcReg := 0, dstReg := 2, offset := 0, imm := 7, wideInstr := false
        nextImm := 0, reloc := none },
      { opcodeClass := .JMP, opcodeS := .imm, aluCode := .ADD, jmpCode := .EXIT, opcodeSz := .W
        opcodeMode := .IMM, srcReg := 0, dstReg := 0, offset := 0, imm := 0, wideInstr := false
        nextImm := 0, reloc := none }]
    maps := [], progs := [], rodata := [] }

/-- The packet pointer of `byteProgram`. -/
def bytePtr : PTR Expr := { ptrType := .PKT, id := 0, baseId := some (-1) }

theorem byteProgram_stores : ∃ cfg b b' st',
    buildCfg byteProgram.instrs byteProgram.progs = .ok cfg ∧ TrackPoint byteProgram cfg b ∧
    trackInstr byteProgram cfg b 1 = .ok b' ∧ b.reg 2 = some (.ptr bytePtr) ∧
    (b'.actions.drop b.actions.length).foldlM
      (fun st e => e.toZ3 none none st) (makeInitState []) = .ok st' :=
  ⟨_, _, _, _, rfl, .mk .first rfl rfl 1 rfl, rfl, rfl, rfl⟩

theorem byteProgram_performs {b : Block} (hptr : b.reg 2 = some (.ptr bytePtr)) :
    Performs byteProgram.maps 1 byteProgram.instrs[1] { b with idx := 1 }
      (.store bytePtr 0 1 (some (imm64 7))) :=
  .store (by rfl) (by decide) hptr (by rfl)

theorem byteProgram_matches :
    Matches none none (makeInitState []) zeroModel 1 ((makeInitState []).contents zeroModel)
      (.store bytePtr 0 1 (some (imm64 7))) (.store (n := 1) (.pkt 0#16) 7#8) := by
  have hplace : PointsTo none none (makeInitState []) zeroModel bytePtr 0 1
      (.pkt (BitVec.ofInt PKT_ADDR_BITS (varDist zeroModel none + 0))) := .pkt rfl rfl
  exact .store hplace rfl rfl

/-- `call <function>; exit` -/
def callProgram : Program :=
  { instrs := [
      { opcodeClass := .JMP, opcodeS := .imm, aluCode := .ADD, jmpCode := .CALL, opcodeSz := .W
        opcodeMode := .IMM, srcReg := 1, dstReg := 0, offset := 0, imm := 1, wideInstr := false
        nextImm := 0, reloc := none },
      { opcodeClass := .JMP, opcodeS := .imm, aluCode := .ADD, jmpCode := .EXIT, opcodeSz := .W
        opcodeMode := .IMM, srcReg := 0, dstReg := 0, offset := 0, imm := 0, wideInstr := false
        nextImm := 0, reloc := none }]
    maps := [], progs := [], rodata := [] }

end Hornet
