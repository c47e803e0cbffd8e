import Hornet.Lib.Hex
import Hornet.Load.Entry
import Hornet.Track.LookupHit
import Hornet.Track.Residue
import Hornet.Verify.EntryAfter
import Hornet.Verify.SpecLowered

/-!
The byte order of keys and values: bytes at ascending addresses, on the stack or in the
packet, as the tracker reads them for a helper call, and the hex text of the same bytes as
the literal of a map atom, asked for after the call.
-/

namespace Hornet

open Lib Smt

/-! ## Literals -/

theorem toBytesBig_joinNat (bs : List (BitVec 8)) :
    toBytesBig (joinNat bs.reverse) bs.length = some (byteInts bs) := by
  have hlt : (joinNat bs.reverse : Int) < 256 ^ bs.length := by
    have hnat := joinNat_lt bs.reverse
    rw [List.length_reverse, Nat.pow_mul] at hnat
    exact_mod_cast hnat
  have hdigits := digits_reverse bs.reverse
  rw [List.length_reverse, List.reverse_reverse] at hdigits
  unfold toBytesBig
  rw [Int.toNat_natCast, if_pos ⟨Int.natCast_nonneg _, Int.natCast_nonneg _, hlt⟩, hdigits]

/-- The hex text of bytes is read as the number that they make up at ascending addresses. -/
theorem parseMultibyteInt_hexText {bs : List (BitVec 8)} (hne : bs ≠ []) :
    parseMultibyteInt bs.length (.str (PyStr.hexText bs)) = some (joinNat bs) := by
  have hbytes : parseValBytes bs.length (.str (PyStr.hexText bs)) = some (byteInts bs) := by
    show parseStrBytes (PyStr.strip (PyStr.hexText bs).toList) bs.length = _
    unfold parseStrBytes
    rw [PyStr.strip_hexText, if_pos (.inl rfl), PyStr.int16_hexDigits hne]
    exact toBytesBig_joinNat bs
  have hall : (byteInts bs).all (fun b => 0 ≤ b && b < 256) = true := by
    apply List.all_eq_true.mpr
    intro b hb
    obtain ⟨hpos, hlt⟩ := byteInts_bounds bs b hb
    simp [hpos, hlt]
  unfold parseMultibyteInt
  rw [hbytes]
  show (if _ then _ else _) = _
  rw [if_pos hall, intOfBytes_byteInts]

/-! ## Bytes in memory -/

/-- A list is known from its elements. -/
theorem map_range_eq {bytes : List (BitVec 8)} {f : Nat → BitVec 8}
    (h : ∀ i < bytes.length, some (f i) = bytes[i]?) : (List.range bytes.length).map f = bytes := by
  apply List.ext_getElem
  · rw [List.length_map, List.length_range]
  · intro i _ hi
    have hbyte := h i hi
    rw [List.getElem?_eq_getElem hi] at hbyte
    rw [List.getElem_map, List.getElem_range]
    exact Option.some.inj hbyte

section Memory

variable {maps : List MapInfo} (R : Option (Reads maps)) (blk : Option Nat) (st : Z3State maps)
  (m : ZModel)

/-- Bytes of the packet where an instruction reads them: in the array of the state that the
read was made in, or, in a context that folds the packet, as the writes before it leave them. -/
inductive PacketHolds (num : Nat) (idx off : Int) (varOff : Option Expr)
    (bytes : List (BitVec 8)) : Prop
  | array {R₀ : Option (Reads maps)} {blk₀ : Option Nat} {st₀ : Z3State maps} {vo : Option ZBv}
      (same : exprToZ3 R blk st (.pktVal num idx off varOff bytes.length) =
        exprToZ3 R₀ blk₀ st₀ (.pktVal num idx off varOff bytes.length))
      (direct : ∀ R', R₀ = some R' →
        R'.readPkt (.pktVal num idx off varOff bytes.length) = .ok none)
      (hvo : optToZ3 R₀ blk₀ st₀ varOff = .ok vo)
      (h : ∀ i < bytes.length, some (st₀.pkt.eval m
        ((addrTerm PKT_ADDR_BITS off vo).eval m + BitVec.ofNat _ i)) = bytes[i]?)
  | writes {F : ForwardContext maps} {w : Walk maps} (hooked : R = F.hooked w)
      (folds : F.fold .pkt = true) (fixed : varOff = none)
      (h : ∀ i < bytes.length, ∃ t,
        (F.memAt w F.fuel).byteAfter F.fuel ⟨.PKT, off + (i : Nat), 1, none, none, none⟩
          ((F.memAt w F.fuel).visible · num idx) = .ok (some t) ∧ some (t.eval m) = bytes[i]?)

/-- Whether a slot holds what has no term. -/
def lacksTerm (slots : List (Option Obj)) (i : Nat) : Bool :=
  match (slots[i]?).join with
  | some o => !(exprToZ3 R blk st o.val).toBool
  | none => false

/-- How the bytes of the stack came about: stores to a stack of any contents. -/
structure Placement (stk : List (Option Obj)) where
  start : Block
  stores : List (StackStore R blk st m)
  last : Block
  run : stores.foldlM (fun b s => s.step b) start = .ok last
  same : stk = last.stk

variable {R blk st m}

/-- A read in the array of a state is the number that the bytes there make up. -/
theorem pktVal_array {R₀ : Option (Reads maps)} {blk₀ : Option Nat} {st₀ : Z3State maps}
    {vo : Option ZBv} {num : Nat} {idx off : Int} {varOff : Option Expr} {bytes : List (BitVec 8)}
    (direct : ∀ R', R₀ = some R' →
      R'.readPkt (.pktVal num idx off varOff bytes.length) = .ok none)
    (hvo : optToZ3 R₀ blk₀ st₀ varOff = .ok vo)
    (h : ∀ i < bytes.length, some (st₀.pkt.eval m
      ((addrTerm PKT_ADDR_BITS off vo).eval m + BitVec.ofNat _ i)) = bytes[i]?) (hne : bytes ≠ []) :
    ∃ t, exprToZ3 R₀ blk₀ st₀ (.pktVal num idx off varOff bytes.length) = .ok t ∧
      t.toNat m = joinNat bytes := by
  obtain ⟨t, ht⟩ := concatCells_ok st₀.pkt (addrTerm PKT_ADDR_BITS off vo)
    (List.length_pos_iff.mpr hne)
  refine ⟨t, ?_, ?_⟩
  · unfold exprToZ3
    rw [hvo]
    cases R₀ with
    | none => exact ht
    | some R' =>
        dsimp only
        rw [direct R' rfl]
        exact ht
  · rw [toNat_concatCells ht, cellsNat_selectBytes, Bytes.getBytes_eq_joinNat, map_range_eq h]

/-- A read that is resolved from the writes is the number that the bytes they leave make up. -/
theorem pktVal_writes {F : ForwardContext maps} {w : Walk maps} (folds : F.fold .pkt = true)
    {num : Nat} {idx off : Int} {bytes : List (BitVec 8)}
    (h : ∀ i < bytes.length, ∃ t,
      (F.memAt w F.fuel).byteAfter F.fuel ⟨.PKT, off + (i : Nat), 1, none, none, none⟩
        ((F.memAt w F.fuel).visible · num idx) = .ok (some t) ∧ some (t.eval m) = bytes[i]?)
    (hne : bytes ≠ []) :
    ∃ t, exprToZ3 (F.hooked w) blk st (.pktVal num idx off none bytes.length) = .ok t ∧
      t.toNat m = joinNat bytes := by
  have : Nonempty (ZTerm (.bv 8)) := ⟨bvVal 0 8⟩
  choose! g hg hbyte using h
  have hcells : (List.range bytes.length).mapM (fun (i : Nat) =>
      (F.memAt w F.fuel).byteAfter F.fuel ⟨.PKT, off + (i : Nat), 1, none, none, none⟩
        ((F.memAt w F.fuel).visible · num idx)) =
      .ok (((List.range bytes.length).map g).map some) := by
    rw [List.map_map]
    exact mapM_eq_ok_map fun i hi => hg i (List.mem_range.mp hi)
  obtain ⟨k, hk⟩ : ∃ k, bytes.length = k + 1 :=
    Nat.exists_eq_add_one_of_ne_zero (List.length_pos_iff.mpr hne).ne'
  obtain ⟨t, ht⟩ : ∃ t, concatCells (((List.range bytes.length).map g).map fun c => ⟨8, c⟩) =
      .ok t := by
    rw [hk, List.range_succ_eq_map]
    exact ⟨_, rfl⟩
  have hread : (F.reads w F.fuel).readPkt (.pktVal num idx off none bytes.length) =
      .ok (some t) := by
    rw [F.reads_eq w]
    show (if F.fold .pkt = true then _ else _) = _
    rw [if_pos folds]
    refine bind_eq_ok.mpr ⟨_, hcells, ?_⟩
    rw [mapM_id_map_some]
    exact bind_eq_ok.mpr ⟨t, ht, rfl⟩
  refine ⟨t, ?_, ?_⟩
  · unfold exprToZ3 ForwardContext.hooked
    dsimp only
    rw [hread]
    rfl
  · rw [toNat_concatCells ht, cellsNat_bytes, List.map_map]
    exact congrArg joinNat (map_range_eq hbyte)

/-- A read of the packet is the number that its bytes make up at ascending addresses. -/
theorem PacketHolds.read {num : Nat} {idx off : Int} {varOff : Option Expr}
    {bytes : List (BitVec 8)} (h : PacketHolds R blk st m num idx off varOff bytes)
    (hne : bytes ≠ []) :
    ∃ t, exprToZ3 R blk st (.pktVal num idx off varOff bytes.length) = .ok t ∧
      t.toNat m = joinNat bytes := by
  cases h with
  | array same direct hvo h =>
      rw [same]
      exact pktVal_array direct hvo h hne
  | writes hooked folds fixed h =>
      subst hooked fixed
      exact pktVal_writes folds h hne

theorem lacksTerm_false {slots : List (Option Obj)} {i : Nat} {o : Obj}
    (h : lacksTerm R blk st slots i = false) (ho : (slots[i]?).join = some o) :
    ∃ x, StandsFor R blk st m o.val x := by
  unfold lacksTerm at h
  rw [ho] at h
  cases ht : exprToZ3 R blk st o.val with
  | error err =>
      dsimp only at h
      rw [ht] at h
      cases h
  | ok t => exact ⟨_, t, ht, rfl⟩

theorem lacksTerm_true {slots : List (Option Obj)} {i : Nat}
    (h : lacksTerm R blk st slots i = true) :
    ∃ o, (slots[i]?).join = some o ∧ HasNoTerm R blk st o.val := by
  unfold lacksTerm at h
  split at h
  · rename_i o ho
    refine ⟨o, ho, ?_⟩
    cases ht : exprToZ3 R blk st o.val with
    | error err => exact ⟨err, ht⟩
    | ok t =>
        rw [ht] at h
        cases h
  · cases h

namespace Placement

variable {stk : List (Option Obj)} (P : Placement R blk st m stk)

/-- The bytes of the stack that are known. -/
def known : StackBytes := knownBytes P.stores fun _ => none

/-- The slots that hold what has no term, or the rest of it under a mask. -/
def stale : Nat → Bool := staleSlots P.stores (lacksTerm R blk st P.start.stk)

theorem mixed : MixedStack R blk st m P.last P.known P.stale := by
  have hstart : MixedStack R blk st m P.start (fun _ => none) (lacksTerm R blk st P.start.stk) := by
    constructor
    · intro a v ha
      cases ha
    · intro i o hclean ho
      obtain ⟨x, hx⟩ := lacksTerm_false (m := m) hclean ho
      exact ⟨x, hx, nofun⟩
    · intro i hstale
      exact lacksTerm_true hstale
  obtain ⟨b, hrun, hmixed⟩ := mixedStack_run P.stores hstart
  obtain rfl := Except.ok.inj (P.run.symm.trans hrun)
  exact hmixed

/-- The bytes lie where the pointer points to, the first at the lowest address, when an
instruction of block `num` reads them. -/
inductive At (num : Nat) (idx : Int) (p : PTR Expr) (bytes : List (BitVec 8)) : Prop
  | stack (htype : p.ptrType = .STK)
      (h : ∀ i < bytes.length, P.known (p.off + (i : Nat)) = bytes[i]?)
  | packet (htype : p.ptrType = .PKT)
      (h : PacketHolds R blk st m num idx p.off p.varOff bytes)

/-- One of the `size` bytes lies in a slot that holds the rest of what has no term. -/
def Residual (p : PTR Expr) (size : Nat) : Prop :=
  p.ptrType = .STK ∧ ∃ q < size, P.stale (slotOf (p.off + (q : Nat))) = true

/-- What a helper reads through the pointer. -/
structure Loaded (p : PTR Expr) (bytes : List (BitVec 8)) (o : Obj) : Prop where
  residual : P.Residual p bytes.length → HasNoTerm R blk st o.val
  bytes : ¬P.Residual p bytes.length →
    ∃ t, exprToZ3 R blk st o.val = .ok t ∧ t.toNat m % 2 ^ (8 * bytes.length) = joinNat bytes

/-- A load leaves the registers, the stack and the actions. -/
theorem load_loaded {c : Block} (hstk : c.stk = stk) {p : PTR Expr} {bytes : List (BitVec 8)}
    (hread : p.checkedNull = some false) (hne : bytes ≠ []) {idx : Nat}
    (hat : P.At c.num idx p bytes) :
    ∃ o c', load idx c p 0 bytes.length = .ok (o, c') ∧ c'.stk = stk ∧ c'.regs = c.regs ∧
      c'.actions = c.actions ∧ c'.num = c.num ∧ c'.idx = c.idx ∧ P.Loaded p bytes o := by
  have hsize : 0 < bytes.length := List.length_pos_iff.mpr hne
  unfold load
  rw [if_neg (by simp [hread])]
  dsimp only
  rw [Int.add_zero]
  cases hat with
  | stack htype h =>
      rw [htype]
      have hmixed : MixedStack R blk st m c P.known P.stale := P.mixed.of_stk (hstk.trans P.same)
      have hstored : ∀ i < bytes.length, (P.known (p.off + (i : Nat))).isSome := by
        intro i hi
        rw [h i hi, List.getElem?_eq_getElem hi]
        rfl
      obtain ⟨o, ho, hresidue, hclean⟩ := stkLoad_mixed hmixed hsize hstored
      refine ⟨o, c, ?_, hstk, rfl, rfl, rfl, rfl, ?_, ?_⟩
      · dsimp only
        rw [ho]
        rfl
      · rintro ⟨-, q, hq, hstale⟩
        exact hresidue ⟨q, hq, hstale⟩
      · intro hnone
        obtain ⟨t, ht, hval⟩ := hclean fun q hq => by
          by_contra hstale
          exact hnone ⟨htype, q, hq, by simpa using hstale⟩
        refine ⟨t, ht, hval.trans ?_⟩
        unfold StackBytes.load
        refine congrArg joinNat (map_range_eq fun i hi => ?_)
        rw [h i hi, List.getElem?_eq_getElem hi]
        rfl
  | packet htype h =>
      rw [htype]
      refine ⟨_, _, rfl, hstk, rfl, rfl, rfl, rfl, ?_, ?_⟩
      · rintro ⟨hstk, -⟩
        rw [htype] at hstk
        cases hstk
      · intro _
        obtain ⟨t, ht, hval⟩ := h.read hne
        refine ⟨t, ht, ?_⟩
        rw [hval]
        exact Nat.mod_eq_of_lt (joinNat_lt bytes)

end Placement

end Memory

/-! ## The atom -/

section MapAtom

variable {maps : List MapInfo} (cs : CondState maps) (m : ZModel)

variable {cs m} {mapId n size : Nat} {vs : List (BitVec 8)}

/-- The value of an entry whose bytes are those of the literal. -/
theorem bytesEq_shown (hcs : ForwardContext.ShowsEntry cs m mapId n size vs) (hne : vs ≠ []) :
    ∃ t, cs.bytesEq ⟨.MAP, 0, 1, some mapId, some (.num n size (-1)), none⟩ vs.length
        (joinNat vs) = .ok t ∧ t.eval m = true := by
  have hvalue := hcs.value
  have : Nonempty (ZTerm (.bv 8)) := ⟨bvVal 0 8⟩
  choose! cell hcell hbyte using hvalue
  have hread : ∀ i ∈ List.range vs.length,
      cs.readLoc ⟨.MAP, 0 + (i : Int), 1, some mapId, some (.num n size (-1)), none⟩ =
        .ok (cell i) := by
    intro i hi
    rw [Int.zero_add]
    exact hcell i (List.mem_range.mp hi)
  have hbytes : cs.readBytes ⟨.MAP, 0, 1, some mapId, some (.num n size (-1)), none⟩ vs.length =
      .ok ((List.range vs.length).map fun i => ⟨8, cell i⟩) := by
    apply mapM_eq_ok_map
    intro i hi
    dsimp only
    rw [hread i hi]
    rfl
  obtain ⟨k, hk⟩ : ∃ k, vs.length = k + 1 :=
    Nat.exists_eq_add_one_of_ne_zero (List.length_pos_iff.mpr hne).ne'
  obtain ⟨t, ht⟩ : ∃ t, cs.bytesEq ⟨.MAP, 0, 1, some mapId, some (.num n size (-1)), none⟩ vs.length
      (joinNat vs) = .ok t := by
    unfold CondState.bytesEq
    rw [hbytes, hk, List.range_succ_eq_map]
    exact ⟨_, rfl⟩
  refine ⟨t, ht, ?_⟩
  obtain ⟨obs, ⟨cells, hcells, hobs⟩, heval⟩ := bytesEq_observed (m := m) rfl ht
  apply heval.mpr
  obtain rfl := Except.ok.inj ((mapM_eq_ok_map hread).symm.trans hcells)
  rw [hobs, List.map_map]
  exact map_range_eq hbyte

variable {defs : List MapDef} {ref : Json} {d : MapDef} {ks : List (BitVec 8)}

/-- `{"map": ref, "key": "0x…", "value": "0x…"}`. -/
def entryAtom (ref : Json) (ks vs : List (BitVec 8)) : List (String × Json) :=
  [("map", ref), ("key", .str (PyStr.hexText ks)), ("value", .str (PyStr.hexText vs))]

/-- What it is parsed to. -/
def entrySpec (d : MapDef) (ks vs : List (BitVec 8)) : SpecAtom :=
  .map d.id (joinNat ks) none (some (joinNat vs)) d.keySize d.valueSize

theorem parseAtom_entryAtom (hd : resolveMap (some defs) ref = some d)
    (hks : ks.length = d.keySize) (hvs : vs.length = d.valueSize) (hkey : ks ≠ []) (hval : vs ≠ [])
    (calls : Option (Dict Int CallRecord)) (blocks : Option (List Block)) (block : Option Int) :
    parseAtom (some defs) calls blocks block (entryAtom ref ks vs) = some (entrySpec d ks vs) := by
  have hmap : parseAtom (some defs) calls blocks block (entryAtom ref ks vs) =
      parseMapAtom (some defs) (entryAtom ref ks vs) := rfl
  have hread := parseMultibyteInt_hexText hkey
  have hread' := parseMultibyteInt_hexText hval
  rw [hks] at hread
  rw [hvs] at hread'
  have hparts : mapAtomParts (some defs) (entryAtom ref ks vs) =
      (resolveMap (some defs) ref).bind fun m =>
        (parseMultibyteInt m.keySize (.str (PyStr.hexText ks))).bind fun key =>
          ((some (Json.str (PyStr.hexText vs))).mapM (parseMultibyteInt m.valueSize)).bind fun value =>
            some (m, key, value) := rfl
  rw [hmap, parseMapAtom, hparts, hd, Option.bind_some, hread, Option.bind_some, Option.mapM_some,
    hread']
  rfl

/-- The atom of an entry is true where the entry is shown. -/
theorem entryAtom_true (hks : ks.length = d.keySize) (hvs : vs.length = d.valueSize)
    (hkey : ks ≠ []) (hval : vs ≠ []) (hcs : ForwardContext.ShowsEntry cs m d.id (joinNat ks) d.keySize vs)
    (numeral : Json → Option Int) :
    ∃ t, (entrySpec d ks vs).toZ3 numeral cs = .ok t ∧ t.eval m = true := by
  obtain ⟨hit, hhit, hpresent⟩ := hcs.hit
  obtain ⟨eq, heq, hbytes⟩ := bytesEq_shown hcs hval
  have hkeyNum : exprToZ3 cs.reads cs.block cs.sigma (.num (joinNat ks) d.keySize (-1)) =
      .ok ⟨d.keySize * 8, bvVal (joinNat ks) (d.keySize * 8)⟩ := rfl
  have hnonzero : d.keySize ≠ 0 := by
    rw [← hks]
    exact (List.length_pos_iff.mpr hkey).ne'
  refine ⟨.and hit eq, ?_, ?_⟩
  · have hatom : (entrySpec d ks vs).toAtom numeral =
        .ok (.map d.id (joinNat ks) none (some (joinNat vs : Int)) d.keySize d.valueSize) :=
      if_neg hnonzero
    unfold SpecAtom.toZ3
    rw [hatom]
    show ((Atom.map d.id (joinNat ks) none (some (joinNat vs : Int)) d.keySize d.valueSize).toZ3
      cs).mapError CondError.lower = _
    unfold Atom.toZ3
    dsimp only
    rw [toZ3_containMapValue hkeyNum hhit, ← hvs, heq]
    rfl
  · rw [Term.eval_and, hpresent, hbytes]
    rfl

end MapAtom

/-! ## Calls -/

section Calls

variable {maps : List MapInfo} (R : Option (Reads maps)) (blk : Option Nat) (st : Z3State maps)
  (m : ZModel) (mapId : Nat)

/-- A call of `bpf_map_update_elem` with `BPF_ANY`, for a key and a value whose bytes lie in
memory. -/
structure UpdateCall (ks vs : List (BitVec 8)) where
  idx : Nat
  block : Block
  placed : Placement R blk st m block.stk
  map : PTR Expr
  key : PTR Expr
  value : PTR Expr
  mapArg : mapArgument block 1 = some map
  isMap : map.mapId = some mapId
  keyArg : (block.reg 2).bind Expr.ptr? = some key
  valueArg : (block.reg 3).bind Expr.ptr? = some value
  anyArg : (block.reg 4).bind Expr.num? = some 0
  keyReads : key.checkedNull = some false
  valueReads : value.checkedNull = some false
  keyAt : placed.At block.num idx key ks
  valueAt : placed.At block.num idx value vs

/-- A call of `bpf_map_lookup_elem` for a key whose bytes lie in memory. -/
structure LookupCall (ks : List (BitVec 8)) where
  idx : Nat
  block : Block
  placed : Placement R blk st m block.stk
  map : PTR Expr
  key : PTR Expr
  mapArg : mapArgument block 1 = some map
  isMap : map.mapId = some mapId
  keyArg : (block.reg 2).bind Expr.ptr? = some key
  keyReads : key.checkedNull = some false
  keyAt : placed.At block.num idx key ks

variable {R blk st m mapId} {ks vs : List (BitVec 8)}

/-- None of the bytes lies in a slot that holds the rest of what has no term. -/
def UpdateCall.Clean (U : UpdateCall R blk st m mapId ks vs) : Prop :=
  ¬U.placed.Residual U.key ks.length ∧ ¬U.placed.Residual U.value vs.length

def LookupCall.Clean (L : LookupCall R blk st m mapId ks) : Prop :=
  ¬L.placed.Residual L.key ks.length

/-- The call is tracked, and recorded as the event `e`. -/
def UpdateCall.Records (U : UpdateCall R blk st m mapId ks vs) (e : Event) : Prop :=
  ∃ b, mapUpdate maps U.idx U.block = .ok b ∧ b.actions = U.block.actions ++ [e]

/-- A context is asked about the map at the end of block `b`, after the update `e` whose operands
are lowered with `R`, `blk` and `st`: it keeps the map in the state, and lowers them where the
walk comes to the update, or it folds the map, and lowers them when it is asked. -/
inductive AskedAfter (F : ForwardContext maps) (m : ZModel) (mapId : Nat) (e : Event)
    (R : Option (Reads maps)) (blk : Option Nat) (st : Z3State maps) (w : Walk maps) (b : Nat) :
    Prop
  | kept {instrs : List Instr} {progs : List ProgRegion} {cfg : List Block} {P : Program}
      {t : Tracker} {targets : Option (List Nat)} {order : List Nat} {w₁ : Walk maps}
      (analysed : F.Analysed w instrs progs cfg P t targets order)
      (last : F.LastBefore w m mapId e b) (arrives : F.Arrives order e w₁)
      (keeps : F.leaves (some (.map (some mapId))) = false) (hooked : R = F.hooked w₁)
      (block : blk = some e.block) (state : st = w₁.curSigma)
  | folded {instrs : List Instr} {progs : List ProgRegion} {cfg : List Block} {P : Program}
      {t : Tracker} {targets : Option (List Nat)} {order : List Nat}
      (analysed : F.Analysed w instrs progs cfg P t targets order)
      (last : F.LastBefore w m mapId e b) (folds : F.fold (.map (some mapId)) = true)
      (hooked : R = F.hooked w) (block : blk = none) (state : st = F.initSt)

/-- What a context that folds the map needs besides: nothing that the atom asks for depends on
something without an encoding, the blocks of the writes before the update have no larger numbers,
and a key that is recorded as a constant is recorded as the number `n` of its bytes. -/
structure FoldExact (F : ForwardContext maps) (w : Walk maps) (m : ZModel) (mapId : Nat)
    (e : Event) (b n : Nat) (atom : SpecAtom) : Prop where
  encoded : F.EncodedAt w b atom
  ordered : F.Ordered w m mapId e
  constant : ∀ k c, e.action.mapKey = some k → k.num? = some c → c = n

/-- The call is tracked and its operands are lowered, and wherever the map is asked about after
it, the atom is true. -/
def UpdateCall.Shown (U : UpdateCall R blk st m mapId ks vs) (F : ForwardContext maps)
    (defs : List MapDef) (a : List (String × Json)) (keyTerm : ZBv) : Prop :=
  ∃ e key value flags size v, U.Records e ∧ e.action = .mapUpdate (some mapId) key value flags size ∧
    someToZ3 R blk st key = .ok keyTerm ∧ someToZ3 R blk st value = .ok v ∧
    ∀ w b, AskedAfter F m mapId e R blk st w b → ∀ calls blocks block numeral, ∃ atom t,
      parseAtom (some defs) calls blocks block a = some atom ∧
        atom.toZ3 numeral (F.condState w b) = .ok t ∧ t.eval m = true

/-- The call is tracked, and its result is the value of the entry with the key. -/
def LookupCall.Finds (L : LookupCall R blk st m mapId ks) (keyTerm : ZBv) : Prop :=
  ∃ b p k, mapLookup maps L.idx L.block = .ok b ∧ b.reg 0 = some (.ptr p) ∧
    p.ptrType = .MAP_VALUE ∧ p.mapId = some mapId ∧ someToZ3 R blk st p.mapKey = .ok k ∧
    (resize k (keyBits maps mapId)).eval m = (resize keyTerm (keyBits maps mapId)).eval m

variable {info : MapInfo} (hinfo : maps[mapId]? = some info)

include hinfo

/-- The operands of the update are what is read through the pointers. -/
theorem mapUpdate_loaded (U : UpdateCall R blk st m mapId ks vs) (hks : ks.length = info.keySize)
    (hvs : vs.length = info.valueSize) (hkey : ks ≠ []) (hval : vs ≠ []) :
    ∃ key value b, mapUpdate maps U.idx U.block = .ok b ∧
      b.actions = U.block.actions ++ [⟨U.block.num, U.block.idx,
        .mapUpdate (some mapId) (some key.val) (some value.val) (some 0) info.valueSize⟩] ∧
      U.placed.Loaded U.key ks key ∧ U.placed.Loaded U.value vs value := by
  obtain ⟨key, b₁, hload, hstk, hregs, hactions, hnum, hidx, hloaded⟩ :=
    U.placed.load_loaded rfl U.keyReads hkey U.keyAt
  obtain ⟨value, b₂, hload', -, hregs', hactions', hnum', hidx', hloaded'⟩ :=
    U.placed.load_loaded hstk U.valueReads hval (hnum.symm ▸ U.valueAt)
  have hflag : (b₂.reg 4).bind Expr.num? = some 0 := by
    rw [Block.reg, hregs', hregs]
    exact U.anyArg
  have hmap : mapInfo maps U.map.mapId = .ok info := by
    rw [U.isMap]
    unfold mapInfo
    rw [Option.bind_some, hinfo]
    rfl
  rw [hks] at hload
  rw [hvs] at hload'
  refine ⟨key, value, (b₂.emit (.mapUpdate (some mapId) (some key.val) (some value.val) (some 0)
    info.valueSize)).scalarResult U.idx, ?_, ?_, hloaded, hloaded'⟩
  · unfold mapUpdate
    rw [U.mapArg, U.keyArg, U.valueArg]
    dsimp only
    rw [hmap]
    show (load U.idx U.block U.key 0 info.keySize >>= _) = _
    rw [hload]
    show (load U.idx b₁ U.value 0 info.valueSize >>= _) = _
    rw [hload', U.isMap]
    show Except.ok (Block.scalarResult (b₂.emit (.mapUpdate (some mapId) (some key.val)
      (some value.val) ((b₂.reg 4).bind Expr.num?) info.valueSize)) U.idx) = _
    rw [hflag]
  · show b₂.actions ++ [_] = _
    rw [hactions', hactions, hnum', hnum, hidx', hidx]

theorem mapLookup_loaded (L : LookupCall R blk st m mapId ks) (hks : ks.length = info.keySize)
    (hkey : ks ≠ []) :
    ∃ key b p, mapLookup maps L.idx L.block = .ok b ∧ b.reg 0 = some (.ptr p) ∧
      p.ptrType = .MAP_VALUE ∧ p.mapId = some mapId ∧ p.mapKey = some key.val ∧
      L.placed.Loaded L.key ks key := by
  obtain ⟨key, b₁, hload, -, -, -, -, -, hloaded⟩ :=
    L.placed.load_loaded rfl L.keyReads hkey L.keyAt
  have hmap : mapInfo maps L.map.mapId = .ok info := by
    rw [L.isMap]
    unfold mapInfo
    rw [Option.bind_some, hinfo]
    rfl
  rw [hks] at hload
  let p : PTR Expr :=
    { ptrType := .MAP_VALUE, baseId := some L.idx, mapId := L.map.mapId, mapKey := some key.val,
      mapKeyId := some L.idx, checkedNull := none }
  refine ⟨key, ((b₁.setReg 0 (some (.fresh L.idx (.ptr p)))).emit
    (.mapLookup L.map.mapId (some key.val) (some L.idx))).setPtrFacts ⟨some L.idx, none⟩, p, ?_, ?_,
    rfl, L.isMap, rfl, hloaded⟩
  · unfold mapLookup
    rw [L.mapArg, L.keyArg]
    dsimp only
    rw [hmap]
    show (load L.idx L.block L.key 0 info.keySize >>= _) = _
    rw [hload]
    rfl
  · show (Function.update b₁.regs 0 _ 0).map (·.val) = _
    rw [Function.update_self]
    rfl

omit hinfo in
theorem UpdateCall.records_unique {U : UpdateCall R blk st m mapId ks vs} {e e' : Event}
    (h : U.Records e) (h' : U.Records e') : e = e' := by
  obtain ⟨b, hb, hactions⟩ := h
  obtain ⟨b', hb', hactions'⟩ := h'
  obtain rfl := Except.ok.inj (hb.symm.trans hb')
  exact List.singleton_inj.mp (List.append_cancel_left (hactions.symm.trans hactions'))

/-- An update whose operands are lowered has one of every byte. -/
theorem UpdateCall.clean_of_shown (U : UpdateCall R blk st m mapId ks vs)
    (hks : ks.length = info.keySize) (hvs : vs.length = info.valueSize) (hkey : ks ≠ []) (hval : vs ≠ [])
    {F : ForwardContext maps} {defs : List MapDef} {a : List (String × Json)} {keyTerm : ZBv}
    (h : U.Shown F defs a keyTerm) : U.Clean := by
  obtain ⟨key, value, b, hupdate, hactions, hkeyLoaded, hvalueLoaded⟩ :=
    mapUpdate_loaded hinfo U hks hvs hkey hval
  obtain ⟨e, keyExpr, valueExpr, flags, size, v, hrecords, haction, hk, hv, -⟩ := h
  obtain rfl := UpdateCall.records_unique hrecords ⟨b, hupdate, hactions⟩
  cases haction
  constructor
  · intro hres
    obtain ⟨err, herr⟩ := hkeyLoaded.residual hres
    cases hk.symm.trans herr
  · intro hres
    obtain ⟨err, herr⟩ := hvalueLoaded.residual hres
    cases hv.symm.trans herr

theorem LookupCall.clean_of_finds (L : LookupCall R blk st m mapId ks)
    (hks : ks.length = info.keySize) (hkey : ks ≠ []) {keyTerm : ZBv} (h : L.Finds keyTerm) :
    L.Clean := by
  obtain ⟨key, b, p, hlookup, hreg, -, -, hmapKey, hloaded⟩ := mapLookup_loaded hinfo L hks hkey
  obtain ⟨b', p', k, hlookup', hreg', -, -, hk, -⟩ := h
  obtain rfl := Except.ok.inj (hlookup.symm.trans hlookup')
  obtain rfl : p = p' := Expr.ptr.inj (Option.some.inj (hreg.symm.trans hreg'))
  intro hres
  obtain ⟨err, herr⟩ := hloaded.residual hres
  rw [hmapKey] at hk
  cases hk.symm.trans herr

omit hinfo

/-- The entry is shown wherever the map is asked about after the update. -/
theorem UpdateCall.showsEntry {F : ForwardContext maps} {w : Walk maps} {b keySize size : Nat}
    {e : Event} {key value : Expr} {k v : ZBv} (hhash : isHashMap maps mapId = true)
    (hasked : AskedAfter F m mapId e R blk st w b)
    (haction : e.action = .mapUpdate (some mapId) (some key) (some value) (some 0) size)
    (hks : ks.length = keySize) (hkeyWidth : keyBits maps mapId = 8 * ks.length)
    (hvalWidth : vs.length = valBytes maps mapId) (hsize : vs.length ≤ size)
    (hk : exprToZ3 R blk st key = .ok k) (hkval : k.toNat m % 2 ^ (8 * ks.length) = joinNat ks)
    (hv : exprToZ3 R blk st value = .ok v) (hvval : v.toNat m % 2 ^ (8 * vs.length) = joinNat vs)
    (hexact : F.fold (.map (some mapId)) = true →
      FoldExact F w m mapId e b (joinNat ks)
        (.map mapId (joinNat ks) none (some (joinNat vs)) keySize vs.length)) :
    ForwardContext.ShowsEntry (F.condState w b) m mapId (joinNat ks) keySize vs := by
  have hfits : joinNat ks < 2 ^ (keySize * 8) := by
    rw [← hks, Nat.mul_comm]
    exact joinNat_lt ks
  have hkey := ForwardContext.ofNat_of_mod hkeyWidth hkval
  cases hasked with
  | kept analysed last arrives keeps hooked block state =>
      subst hooked block state
      exact analysed.walked.showsEntry_kept last arrives keeps hhash haction hfits hk hkey hv hvval
        hvalWidth
  | folded analysed last folds hooked block state =>
      subst hooked block state
      obtain ⟨hencoded, hordered, hconst⟩ := hexact folds
      have hplain : isIndexed maps mapId = false := not_indexed_of_hash hhash
      refine analysed.walked.showsEntry_folded last hordered folds hplain haction
        (fun c hc => hconst key c (by rw [haction]; rfl) hc) hfits hk hkey hv hvval hsize ⟨?_, ?_⟩
      · have hparts := hencoded _ List.mem_cons_self
        refine hparts _ (List.mem_cons_of_mem _ ?_)
        unfold ForwardContext.presenceNeeds
        rw [if_neg]
        · exact List.mem_singleton.mpr rfl
        · unfold isIndexed at hplain
          simp [hplain, folds]
      · intro i hi
        have hbyte : Ask.byte ⟨.MAP, (i : Nat), 1, some mapId,
            some (.num (joinNat ks) keySize (-1)), none⟩ ∈
              askBytes ⟨.MAP, 0, 1, some mapId, some (.num (joinNat ks) keySize (-1)), none⟩
                vs.length := by
          refine List.mem_map.mpr ⟨i, List.mem_range.mpr hi, ?_⟩
          rw [Int.zero_add]
        refine hencoded _ (List.mem_cons_of_mem _ hbyte) _ ?_
        show _ ∈ (if F.fold (.map (some mapId)) = true then _ else _)
        rw [if_pos folds]
        exact List.mem_singleton.mpr rfl

end Calls

/-! ## Two programs -/

section Programs

/-- `counters`, a hash map of the given sizes. -/
def countersDef (keySize valueSize : Nat) : MapDef :=
  { id := 0, name := some "counters", type := 1, keySize := keySize, valueSize := valueSize
    maxEntries := 16 }

/-- The maps of a program that has `counters` only. -/
def countersMaps (keySize valueSize : Nat) : List MapInfo := [(countersDef keySize valueSize).info]

/-- `*(u32 *)(r10 + off) = imm` -/
def storeWord (off imm : Int) : Instr :=
  { exitInstr with opcodeClass := .ST, opcodeMode := .MEM, opcodeSz := .W, dstReg := 10
                   offset := off, imm := imm }

/-- `bpf_map_update_elem(r1, r10 + key, r10 + value, BPF_ANY); exit`, where `r1` is the map. -/
def updateAt (key value : Int) : List Instr :=
  [{ exitInstr with opcodeClass := .ALU64, aluCode := .MOV, opcodeS := .reg, srcReg := 10, dstReg := 2 },
    { exitInstr with opcodeClass := .ALU64, aluCode := .ADD, dstReg := 2, imm := key },
    { exitInstr with opcodeClass := .ALU64, aluCode := .MOV, opcodeS := .reg, srcReg := 10, dstReg := 3 },
    { exitInstr with opcodeClass := .ALU64, aluCode := .ADD, dstReg := 3, imm := value },
    { exitInstr with opcodeClass := .ALU64, aluCode := .MOV, dstReg := 4 },
    { exitInstr with jmpCode := .CALL, imm := 2 },
    exitInstr]

/-- `r1 = counters` -/
def loadCounters : List Instr :=
  [{ exitInstr with opcodeClass := .LD, opcodeSz := .DW, dstReg := 1, wideInstr := true
                    reloc := some (.map 0) }, .nop]

/-- Stores the word 0x00030201, and updates the entry of its first two bytes with the third. -/
def packedKey : Program :=
  { instrs := loadCounters ++ [storeWord (-8) 0x00030201] ++ updateAt (-8) (-6)
    maps := countersMaps 2 1, progs := [], rodata := [] }

/-- Spills the map, stores the words 7 and 0 over it, and updates the entry of these eight bytes
with themselves. -/
def respilledKey : Program :=
  { instrs := loadCounters ++
      [{ exitInstr with opcodeClass := .STX, opcodeMode := .MEM, opcodeSz := .DW, srcReg := 1
                        dstReg := 10, offset := -8 }, storeWord (-8) 7, storeWord (-4) 0] ++
      updateAt (-8) (-8)
    maps := countersMaps 8 8, progs := [], rodata := [] }

section Stores

variable {maps : List MapInfo} (R : Option (Reads maps)) (blk : Option Nat) (st : Z3State maps)
  (m : ZModel)

theorem standsFor_imm (n : Nat) (hn : n < 2 ^ 32) :
    StandsFor R blk st m (.num n 4 (-1)) (BitVec.ofNat 64 n) := by
  refine ⟨⟨4 * 8, bvVal n (4 * 8)⟩, rfl, ?_⟩
  have hword : (BitVec.ofInt (4 * 8) n).toNat = n := by
    rw [BitVec.ofInt_natCast, BitVec.toNat_ofNat]
    exact Nat.mod_eq_of_lt hn
  exact congrArg (BitVec.ofNat 64) hword

/-- A store of an immediate. -/
def immStore (idx : Nat) (addr : Int) (size n : Nat) (hn : n < 2 ^ 32) (hsize : isStoreSize size)
    (haligned : addr % size = 0) (hbelow : addr < 0) : StackStore R blk st m where
  idx := idx
  addr := addr
  size := size
  value := ⟨.instr idx 0, .num n 4 (-1)⟩
  word := some (BitVec.ofNat 64 n)
  isSize := hsize
  aligned := haligned
  below := hbelow
  holds := standsFor_imm R blk st m n hn

/-- A spilled pointer to the map. -/
def spillStore (idx : Nat) (addr : Int) (haligned : addr % (8 : Nat) = 0) (hbelow : addr < 0) :
    StackStore R blk st m where
  idx := idx
  addr := addr
  size := 8
  value := ⟨.instr 0 0, .ptr { ptrType := .MAP, id := NO_FACT_ID, mapId := some 0 }⟩
  word := none
  isSize := isStoreSize_double
  aligned := haligned
  below := hbelow
  holds := ⟨_, rfl⟩

theorem aligned_word_neg_eight : (-8 : Int) % (4 : Nat) = 0 := rfl

theorem aligned_word_neg_four : (-4 : Int) % (4 : Nat) = 0 := rfl

theorem aligned_slot_neg_eight : (-8 : Int) % (8 : Nat) = 0 := rfl

theorem neg_eight_below : (-8 : Int) < 0 := Int.negSucc_lt_zero 7

theorem neg_seven_below : (-7 : Int) < 0 := Int.negSucc_lt_zero 6

theorem neg_four_below : (-4 : Int) < 0 := Int.negSucc_lt_zero 3

/-- The store of `packedKey`. -/
def packedStores : List (StackStore R blk st m) :=
  [immStore R blk st m 2 (-8) 4 0x00030201 (by decide) isStoreSize_word aligned_word_neg_eight
    neg_eight_below]

/-- `*(u8 *)(r10 - 8) = 1; *(u8 *)(r10 - 7) = 2` -/
def byteStores : List (StackStore R blk st m) :=
  [immStore R blk st m 0 (-8) 1 1 (by decide) (.inl rfl) rfl neg_eight_below,
    immStore R blk st m 1 (-7) 1 2 (by decide) (.inl rfl) rfl neg_seven_below]

/-- The stores of `respilledKey`. -/
def respillStores : List (StackStore R blk st m) :=
  [spillStore R blk st m 2 (-8) aligned_slot_neg_eight neg_eight_below,
    immStore R blk st m 3 (-8) 4 7 (by decide) isStoreSize_word aligned_word_neg_eight neg_eight_below,
    immStore R blk st m 4 (-4) 4 0 (by decide) isStoreSize_word aligned_word_neg_four neg_four_below]

/-- The block at a call in instruction `idx`, with `r1` the map, `r2` and `r3` pointers to the
stack and `r4` zero. -/
def callBlock (idx : Nat) (key value : Int) (stk : List (Option Obj)) : Block :=
  { num := 0, start := 0, «end» := 0, idx := idx, stk := stk
    regs := fun r =>
      if r = 1 then some ⟨.instr 0 0, .ptr { ptrType := .MAP, id := NO_FACT_ID, mapId := some 0 }⟩
      else if r = 2 then some ⟨.instr 0 0, .ptr { ptrType := .STK, off := key, id := 0 }⟩
      else if r = 3 then some ⟨.instr 0 0, .ptr { ptrType := .STK, off := value, id := 0 }⟩
      else if r = 4 then some ⟨.instr 0 0, .num 0 8 (-1)⟩
      else none }

variable {R blk st m} {stores : List (StackStore R blk st m)} {last : Block}

/-- Bytes that stores place on an empty stack. -/
def placement (last : Block)
    (hrun : stores.foldlM (fun b s => s.step b) (callBlock 0 0 0 []) = .ok last) :
    Placement R blk st m last.stk where
  start := callBlock 0 0 0 []
  stores := stores
  last := last
  run := hrun
  same := rfl

/-- An update after the stores. -/
def updateAfter (hrun : stores.foldlM (fun b s => s.step b) (callBlock 0 0 0 []) = .ok last)
    (idx : Nat) (key value : Int) {ks vs : List (BitVec 8)}
    (hkey : ∀ i < ks.length, knownBytes stores (fun _ => none) (key + (i : Nat)) = ks[i]?)
    (hvalue : ∀ i < vs.length, knownBytes stores (fun _ => none) (value + (i : Nat)) = vs[i]?) :
    UpdateCall R blk st m 0 ks vs where
  idx := idx
  block := callBlock idx key value last.stk
  placed := placement last hrun
  map := { ptrType := .MAP, id := NO_FACT_ID, mapId := some 0 }
  key := { ptrType := .STK, off := key, id := 0 }
  value := { ptrType := .STK, off := value, id := 0 }
  mapArg := rfl
  isMap := rfl
  keyArg := rfl
  valueArg := rfl
  anyArg := rfl
  keyReads := rfl
  valueReads := rfl
  keyAt := .stack rfl hkey
  valueAt := .stack rfl hvalue

/-- A lookup after the stores. -/
def lookupAfter (hrun : stores.foldlM (fun b s => s.step b) (callBlock 0 0 0 []) = .ok last)
    (idx : Nat) (key : Int) {ks : List (BitVec 8)}
    (hkey : ∀ i < ks.length, knownBytes stores (fun _ => none) (key + (i : Nat)) = ks[i]?) :
    LookupCall R blk st m 0 ks where
  idx := idx
  block := callBlock idx key key last.stk
  placed := placement last hrun
  map := { ptrType := .MAP, id := NO_FACT_ID, mapId := some 0 }
  key := { ptrType := .STK, off := key, id := 0 }
  mapArg := rfl
  isMap := rfl
  keyArg := rfl
  keyReads := rfl
  keyAt := .stack rfl hkey

theorem not_residual
    (hrun : stores.foldlM (fun b s => s.step b) (callBlock 0 0 0 []) = .ok last) {p : PTR Expr} {n : Nat}
    (h : ∀ q < n, staleSlots stores (lacksTerm R blk st []) (slotOf (p.off + (q : Nat))) = false) :
    ¬(placement last hrun).Residual p n := by
  rintro ⟨-, q, hq, hstale⟩
  cases (h q hq).symm.trans hstale

end Stores

section OneBlock

variable {maps : List MapInfo} {F : ForwardContext maps} {w : Walk maps} {m : ZModel}

/-- A program of one block is walked in one order, and asked about at the end of that block. -/
theorem order_of_one_block (hone : F.blocks.length = 1) {targets : Option (List Nat)}
    {order : List Nat} (h : topoOrder F.blocks (keptBlocks F.blocks targets) = .ok order) :
    order = [0] := by
  have hkept : Kept F.blocks (keptBlocks F.blocks targets) := kept_keptBlocks (by omega) targets
  have hwalks := walkOrder_of_topoOrder hkept h
  have hzero : ∀ b ∈ order, b = 0 := by
    intro b hb
    have hlt := (mem_forwardReachable.mp (hkept.live b ((hwalks.mem b).mp hb))).2
    omega
  have hnodup := hwalks.nodup
  have hmem := (hwalks.mem 0).mpr hkept.entry
  cases order with
  | nil => cases hmem
  | cons b rest =>
      obtain rfl := hzero b List.mem_cons_self
      cases rest with
      | nil => rfl
      | cons c rest =>
          have hc := hzero c (List.mem_cons_of_mem _ List.mem_cons_self)
          rw [hc] at hnodup
          exact absurd List.mem_cons_self (List.nodup_cons.mp hnodup).1

/-- An update in a program of one block, and no other write to the map. -/
theorem lastBefore_of_one_block {mapId : Nat} {e : Event}
    (hevents : F.blocks.flatMap (·.actions) = [e]) (hblock : e.block = 0)
    (hwrites : e.action.writeRegion = some (.map (some mapId))) (hreached : w.Reached m 0) :
    F.LastBefore w m mapId e 0 := by
  refine ⟨?_, hwrites, hblock ▸ hreached, hblock ▸ .refl, fun e' he' _ _ _ => ?_⟩
  · rw [hevents]
    exact List.mem_singleton.mpr rfl
  · rw [hevents] at he'
    exact .inl (List.mem_singleton.mp he')

/-- Where a program of one block is asked about. -/
theorem askedAfter_of_one_block (hone : F.blocks.length = 1) {w' : Walk maps}
    (hw' : F.walk [0] = .ok w') {mapId b : Nat} {e : Event} {R : Option (Reads maps)}
    {blk : Option Nat} {st : Z3State maps} (h : AskedAfter F m mapId e R blk st w b) :
    w = w' ∧ b = 0 := by
  have hanalysed : ∀ {instrs progs cfg P t targets order},
      F.Analysed w instrs progs cfg P t targets order → F.LastBefore w m mapId e b → w = w' ∧ b = 0 := by
    intro instrs progs cfg P t targets order ha hlast
    have hrun := ha.run
    rw [order_of_one_block hone ha.ordered] at hrun
    refine ⟨Except.ok.inj (hrun.symm.trans hw'), ?_⟩
    have hkept : Kept F.blocks (keptBlocks F.blocks targets) := kept_keptBlocks (by omega) targets
    have hlt := (mem_forwardReachable.mp (hkept.live b (ha.walked.visited hlast.reaches))).2
    omega
  cases h with
  | kept analysed last => exact hanalysed analysed last
  | folded analysed last => exact hanalysed analysed last

/-- The walk that folds all regions is asked about a map at the end of the block. -/
theorem askedAfter_folded {P : Program} {w : Walk P.maps}
    (hbuilt : ∃ cfg t, buildCfg P.instrs P.progs = .ok cfg ∧ track P cfg = .ok t ∧
      trackedOf P = t.blocks)
    (horder : topoOrder (trackedOf P) (keptBlocks (trackedOf P) none) = .ok [0])
    (hw : (foldContext P [0]).walk [0] = .ok w) (hreach : (w.reachAt 0).eval m = true) {mapId : Nat}
    {e : Event} (hevents : (trackedOf P).flatMap (·.actions) = [e]) (hblock : e.block = 0)
    (hwrites : e.action.writeRegion = some (.map (some mapId))) :
    AskedAfter (foldContext P [0]) m mapId e ((foldContext P [0]).hooked w) none
      (makeInitState P.maps) w 0 := by
  obtain ⟨cfg, t, hcfg, htrack, hblocks⟩ := hbuilt
  have hreached : w.Reached m 0 := (ForwardContext.reachAt_eval_iff hw m 0).mp hreach
  exact .folded ⟨hcfg, htrack, hblocks, horder, rfl, hw⟩
    (lastBefore_of_one_block hevents hblock hwrites hreached) rfl rfl rfl rfl

end OneBlock

end Programs

end Hornet
