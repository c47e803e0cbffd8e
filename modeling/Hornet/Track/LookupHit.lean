import Hornet.Bpf.Cfg
import Hornet.Load.Object
import Hornet.Track.MemoryStep
import Hornet.Track.Slots

/-!
Which lookups the kernel answers with an entry, by the type of the map, and for which
maps the condition of a lookup says the same.
-/

namespace Hornet

open Smt

/-- How a kernel lookup decides whether there is an entry for a key. -/
inductive LookupRule where
  | exact | index | covering
  deriving DecidableEq, Repr

/-- `HASH` and `ARRAY` in their variants, and `LPM_TRIE`. The lookup of any other type has
no rule of this kind. -/
def kernelRule (type : Nat) : Option LookupRule :=
  if type = 1 ∨ type = 5 ∨ type = 9 ∨ type = 10 then some .exact
  else if type = 2 ∨ type = 6 then some .index
  else if type = 11 then some .covering
  else none

section Rules

variable {w : Nat}

/-- The first four bytes of the key of a trie are the length of its prefix in bits. -/
def prefixLen (k : BitVec w) : Nat := k.toNat % 2 ^ 32

/-- The bits of the data after the length, the highest bit of each byte first. -/
def dataBit (k : BitVec w) (i : Nat) : Bool := k.getLsbD (32 + 8 * (i / 8) + (7 - i % 8))

/-- The entry `e` covers the key `k`: it is no longer, and all its bits are those of `k`. -/
def Covers (e k : BitVec w) : Prop :=
  prefixLen e ≤ prefixLen k ∧ ∀ i < prefixLen e, dataBit e i = dataBit k i

/-- The kernel's lookup of `k` returns an entry of the map with the contents `c`. -/
def LookupRule.Hits (maxEntries : Nat) (c : BitVec w → Bool) (k : BitVec w) : LookupRule → Prop
  | .exact => c k = true
  | .index => k.toNat < maxEntries
  | .covering => ∃ e, c e = true ∧ Covers e k

end Rules

/-- The presence of keys that a lookup reads, from the state or through the hooks, is `c`. -/
def Presence {maps : List MapInfo} (R : Option (Reads maps)) (st : Z3State maps) (mapId : Nat)
    (m : ZModel) (c : BitVec (keyBits maps mapId) → Bool) : Prop :=
  match R with
  | none => (st.map mapId).present.eval m = c
  | some R => ∀ k blk keyId, ∃ t, R.readPresent mapId k blk keyId = .ok t ∧ t.eval m = c (k.eval m)

/-- The condition of a lookup in the map is true, or false for a miss, exactly when the
kernel's lookup returns an entry, for all contents and keys. -/
def ConditionIsKernels (maps : List MapInfo) (mapId : Nat) (info : MapInfo) : Prop :=
  ∃ rule, kernelRule info.type = some rule ∧
    ∀ (R : Option (Reads maps)) (blk : Option Nat) (st : Z3State maps) (m : ZModel)
      (c : BitVec (keyBits maps mapId) → Bool) (key : Expr) (k : ZBv) (keyId : Option Int)
      (result : Bool), Presence R st mapId m c → exprToZ3 R blk st key = .ok k →
      ∃ g, Condition.toZ3 R blk st (.containMapValue (some mapId) (some key) keyId result) = .ok g ∧
        (g.eval m = result ↔
          rule.Hits info.maxEntries c (BitVec.ofNat (keyBits maps mapId) (k.toNat m)))

/-- In some state of the tracker a call of `bpf_map_lookup_elem` on the map is accepted. -/
inductive AcceptedLookup (P : Program) (mapId : Nat) : Prop
  | mk {cfg blocks : List Block} {b b' : Block} {idx : Nat} {instr : Instr} {p : PTR Expr}
      (hcfg : buildCfg P.instrs P.progs = .ok cfg) (hb : TrackPoint P cfg b)
      (hinstr : P.instrs[idx]? = some instr) (hcall : instr.isCall = true)
      (hhelper : instr.srcReg = 0 ∧ instr.imm = 1) (hmap : mapArgument b 1 = some p)
      (hid : p.mapId = some mapId) (h : trackInstr P blocks b idx = .ok b')

/-- Lookups in a map so declared hit when the kernel's would, or are not accepted. -/
def LookupIsKernels (info : MapInfo) : Prop :=
  ∀ (P : Program) (mapId : Nat), P.maps[mapId]? = some info → AcceptedLookup P mapId →
    ConditionIsKernels P.maps mapId info

section Right

variable {maps : List MapInfo} {mapId : Nat} {info : MapInfo} {m : ZModel}
  {R : Option (Reads maps)} {blk : Option Nat} {st : Z3State maps}

theorem mapTypeIn_of_info (hinfo : maps[mapId]? = some info) (types : List Nat) :
    mapTypeIn maps types mapId = types.contains info.type := by
  simp [mapTypeIn, hinfo]

theorem toZ3_containMapValue {key : Expr} {k : ZBv} {keyId : Option Int} {result : Bool}
    {t : ZTerm .bool} (hk : exprToZ3 R blk st key = .ok k)
    (ht : containTerm R blk st mapId k keyId result = .ok t) :
    Condition.toZ3 R blk st (.containMapValue (some mapId) (some key) keyId result) =
      .ok (.term t) := by
  simp only [Condition.toZ3, hk]
  exact congrArg (Except.map Guard.term) ht

/-- Outside the array types and the program arrays a lookup hits exactly a present key. -/
theorem containTerm_plain (hplain : isIndexed maps mapId = false)
    {c : BitVec (keyBits maps mapId) → Bool} (hc : Presence R st mapId m c)
    (blk : Option Nat) (k : ZBv) (keyId : Option Int) (result : Bool) :
    ∃ t, containTerm R blk st mapId k keyId result = .ok t ∧
      (t.eval m = (c (BitVec.ofNat (keyBits maps mapId) (k.toNat m)) == result)) := by
  have hchoice : ¬(isArrayMap maps mapId || isProgMap maps mapId) = true := by
    unfold isIndexed at hplain
    simp [hplain]
  unfold containTerm
  dsimp only
  rw [if_neg hchoice]
  cases R with
  | none =>
      refine ⟨_, rfl, ?_⟩
      rw [Term.eval_iff, Term.eval_select, hc, eval_resize]
      rfl
  | some R =>
      obtain ⟨t, ht, heval⟩ := hc (resize k (keyBits maps mapId)) blk keyId
      rw [eval_resize] at heval
      refine ⟨.iff t (.boolVal result), ?_, ?_⟩
      · dsimp only
        rw [ht]
        rfl
      · rw [Term.eval_iff, heval]
        rfl

theorem containTerm_array (harray : isArrayMap maps mapId = true)
    (hmax : maxEntries maps mapId < 2 ^ keyBits maps mapId) (m : ZModel) (R : Option (Reads maps))
    (blk : Option Nat) (st : Z3State maps) (k : ZBv) (keyId : Option Int) (result : Bool) :
    ∃ t, containTerm R blk st mapId k keyId result = .ok t ∧ (t.eval m = result ↔
      (BitVec.ofNat (keyBits maps mapId) (k.toNat m)).toNat < maxEntries maps mapId) := by
  have hchoice : (isArrayMap maps mapId || isProgMap maps mapId) = true := by simp [harray]
  have hbound : maxEntries maps mapId % 2 ^ keyBits maps mapId = maxEntries maps mapId :=
    Nat.mod_eq_of_lt hmax
  unfold containTerm
  dsimp only
  rw [if_pos hchoice]
  refine ⟨_, rfl, ?_⟩
  rw [← eval_resize]
  cases result with
  | true => simp [CmpOp.eval, BitVec.ult, hbound]
  | false => simp [CmpOp.eval, BitVec.ult, hbound]

theorem conditionIsKernels_hash (hinfo : maps[mapId]? = some info)
    (htype : info.type ∈ HASH_MAP_TYPES) : ConditionIsKernels maps mapId info := by
  have hrule : kernelRule info.type = some .exact := by
    apply if_pos
    simpa [HASH_MAP_TYPES] using htype
  have hhash : isHashMap maps mapId = true := by
    rw [isHashMap, mapTypeIn_of_info hinfo]
    exact List.contains_iff_mem.mpr htype
  refine ⟨.exact, hrule, ?_⟩
  intro R blk st m c key k keyId result hc hk
  obtain ⟨t, ht, heval⟩ := containTerm_plain (not_indexed_of_hash hhash) hc blk k keyId result
  refine ⟨.term t, toZ3_containMapValue hk ht, ?_⟩
  show t.eval m = result ↔ c _ = true
  rw [heval]
  cases c (BitVec.ofNat (keyBits maps mapId) (k.toNat m)) <;> cases result <;> decide

theorem conditionIsKernels_array (hinfo : maps[mapId]? = some info)
    (htype : info.type ∈ ARRAY_MAP_TYPES)
    (hmax : info.maxEntries < 2 ^ (max info.keySize 1 * 8)) :
    ConditionIsKernels maps mapId info := by
  have hrule : kernelRule info.type = some .index := by
    have harray : info.type = 2 ∨ info.type = 6 := by simpa [ARRAY_MAP_TYPES] using htype
    rcases harray with harray | harray <;> rw [harray] <;> rfl
  have harray : isArrayMap maps mapId = true := by
    rw [isArrayMap, mapTypeIn_of_info hinfo]
    exact List.contains_iff_mem.mpr htype
  have hentries : maxEntries maps mapId = info.maxEntries := by simp [maxEntries, hinfo]
  have hwidth : keyBits maps mapId = max info.keySize 1 * 8 := by simp [keyBits, hinfo]
  refine ⟨.index, hrule, ?_⟩
  intro R blk st m c key k keyId result hc hk
  have hfits : maxEntries maps mapId < 2 ^ keyBits maps mapId := by
    rw [hentries, hwidth]
    exact hmax
  obtain ⟨t, ht, heval⟩ := containTerm_array harray hfits m R blk st k keyId result
  refine ⟨.term t, toZ3_containMapValue hk ht, ?_⟩
  rw [hentries] at heval
  exact heval

end Right

section Wrong

/-- `r2 = data; r1 = map 0; call bpf_map_lookup_elem; exit` -/
def lookupProgram (info : MapInfo) : Program :=
  { instrs := [
      { Instr.nop with opcodeClass := .LDX, opcodeMode := .MEM, srcReg := 1, dstReg := 2 },
      { Instr.nop with opcodeClass := .LD, opcodeSz := .DW, dstReg := 1, wideInstr := true
                       reloc := some (.map 0) },
      .nop,
      { Instr.nop with opcodeClass := .JMP, jmpCode := .CALL, imm := 1 },
      { Instr.nop with opcodeClass := .JMP, jmpCode := .EXIT }]
    maps := [info], progs := [], rodata := [] }

/-- The tracker accepts a lookup in a map of any type. -/
theorem acceptedLookup (info : MapInfo) : AcceptedLookup (lookupProgram info) 0 := by
  have hinstr : (lookupProgram info).instrs[3]? =
      some { Instr.nop with opcodeClass := .JMP, jmpCode := .CALL, imm := 1 } := rfl
  exact .mk rfl (.mk .first rfl rfl 3 rfl) hinstr rfl ⟨rfl, rfl⟩ rfl rfl
    (show trackInstr (lookupProgram info) [] _ 3 = .ok _ from rfl)

/-- A map in which only the key 0 is present. -/
def zeroPresent : ZModel
  | .array d .bool, _ => fun k => k == 0#d
  | s, _ => s.zero

/-- A trie with the empty prefix has an entry for every key, but a key that is not the
entry's own is missed. -/
theorem not_conditionIsKernels_trie {info : MapInfo} (htype : info.type = 11) :
    ¬ ConditionIsKernels [info] 0 info := by
  rintro ⟨rule, hrule, h⟩
  rw [htype] at hrule
  cases hrule
  have hplain : isIndexed [info] 0 = false := by
    simp [isIndexed, isArrayMap, isProgMap, mapTypeIn, ARRAY_MAP_TYPES, PROG_MAP_TYPES, htype]
  have hwidth : 8 ≤ keyBits [info] 0 := by
    unfold keyBits
    omega
  have hpow : 2 ^ 8 ≤ 2 ^ keyBits [info] 0 := Nat.pow_le_pow_right (by decide) hwidth
  have hk : exprToZ3 none none (makeInitState [info]) (.num 1 1 (-1)) = .ok ⟨8, bvVal 1 8⟩ := rfl
  have hc : Presence none (makeInitState [info]) 0 zeroPresent (fun k => k == 0#_) := rfl
  obtain ⟨g, hg, hiff⟩ := h none none _ zeroPresent _ _ _ none true hc hk
  obtain ⟨t, ht, heval⟩ := containTerm_plain hplain hc none ⟨8, bvVal 1 8⟩ none true
  cases hg.symm.trans (toZ3_containMapValue hk ht)
  have hone : Bv.toNat zeroPresent ⟨8, bvVal 1 8⟩ = 1 := rfl
  rw [hone] at hiff heval
  have hcovers : Covers 0#_ (BitVec.ofNat (keyBits [info] 0) 1) := by
    constructor
    · exact Nat.zero_le _
    · intro i hi
      exact absurd hi (Nat.not_lt_zero i)
  have hhit : t.eval zeroPresent = true := hiff.mpr ⟨0#_, beq_self_eq_true _, hcovers⟩
  have hzero : BitVec.ofNat (keyBits [info] 0) 1 = 0#_ := by
    simpa [heval] using hhit
  have hnat := congrArg BitVec.toNat hzero
  rw [BitVec.toNat_ofNat, BitVec.toNat_ofNat, Nat.mod_eq_of_lt (by omega), Nat.zero_mod] at hnat
  cases hnat

/-- A number of entries that needs more bits than the key is cut down to them, so the
greatest key misses. -/
theorem not_conditionIsKernels_large {info : MapInfo} (htype : info.type ∈ ARRAY_MAP_TYPES)
    (hmax : 2 ^ (max info.keySize 1 * 8) ≤ info.maxEntries) :
    ¬ ConditionIsKernels [info] 0 info := by
  rintro ⟨rule, hrule, h⟩
  have hindex : rule = .index := by
    have harray : info.type = 2 ∨ info.type = 6 := by simpa [ARRAY_MAP_TYPES] using htype
    rcases harray with harray | harray <;> rw [harray] at hrule <;>
      exact (Option.some.inj hrule).symm
  subst hindex
  have hchoice : (isArrayMap [info] 0 || isProgMap [info] 0) = true := by
    have harray : isArrayMap [info] 0 = true := List.contains_iff_mem.mpr htype
    simp [harray]
  let w := max info.keySize 1 * 8
  have hk : exprToZ3 none none (makeInitState [info]) (.num (-1) (max info.keySize 1) (-1)) =
      .ok ⟨w, bvVal (-1) w⟩ := rfl
  have hkey : Bv.toNat zeroPresent ⟨w, bvVal (-1) w⟩ = 2 ^ w - 1 := by
    show (BitVec.ofInt w (-1)).toNat = _
    rw [BitVec.ofInt_neg, ← BitVec.toNat_allOnes, ← BitVec.neg_one_eq_allOnes]
    rfl
  obtain ⟨g, hg, hiff⟩ := h none none _ zeroPresent _ _ _ none true rfl hk
  have ht : containTerm none none (makeInitState [info]) 0 ⟨w, bvVal (-1) w⟩ none true =
      .ok (.cmp .ult (resize ⟨w, bvVal (-1) w⟩ (keyBits [info] 0))
        (bvVal (maxEntries [info] 0) (keyBits [info] 0))) := by
    unfold containTerm
    dsimp only
    rw [if_pos hchoice]
    rfl
  cases hg.symm.trans (toZ3_containMapValue hk ht)
  have hpos : 0 < 2 ^ w := Nat.two_pow_pos w
  have hgreatest : (BitVec.ofNat (keyBits [info] 0) (2 ^ w - 1)).toNat = 2 ^ w - 1 := by
    rw [BitVec.toNat_ofNat]
    exact Nat.mod_eq_of_lt (show 2 ^ w - 1 < 2 ^ w by omega)
  rw [hkey] at hiff
  have hhit : Guard.eval zeroPresent (.term (.cmp .ult
      (resize ⟨w, bvVal (-1) w⟩ (keyBits [info] 0))
      (bvVal (maxEntries [info] 0) (keyBits [info] 0)))) = true := by
    apply hiff.mpr
    have hentries : 2 ^ w ≤ info.maxEntries := hmax
    have hless : 2 ^ w - 1 < info.maxEntries := by omega
    exact hgreatest.trans_lt hless
  have hless : ((resize ⟨w, bvVal (-1) w⟩ (keyBits [info] 0)).eval zeroPresent).toNat <
      ((bvVal (maxEntries [info] 0) (keyBits [info] 0)).eval zeroPresent).toNat := by
    simpa [Guard.eval, CmpOp.eval, BitVec.ult] using hhit
  rw [eval_resize, hkey, hgreatest] at hless
  have hbelow : ((bvVal (maxEntries [info] 0) (keyBits [info] 0)).eval zeroPresent).toNat < 2 ^ w :=
    BitVec.isLt _
  omega

end Wrong

/-- The condition of a lookup is the kernel's exactly for the hash family, and for arrays
whose number of entries fits the key, as it does in every array of the kernel: its keys
have four bytes. -/
theorem lookup_is_kernels_iff (info : MapInfo) :
    LookupIsKernels info ↔ info.type ∈ HASH_MAP_TYPES ∨
      (info.type ∈ ARRAY_MAP_TYPES ∧ info.maxEntries < 2 ^ (max info.keySize 1 * 8)) := by
  constructor
  · intro h
    have hcond : ConditionIsKernels [info] 0 info := h (lookupProgram info) 0 rfl (acceptedLookup info)
    by_cases hhash : info.type ∈ HASH_MAP_TYPES
    · exact .inl hhash
    · by_cases harray : info.type ∈ ARRAY_MAP_TYPES
      · refine .inr ⟨harray, ?_⟩
        by_contra hlarge
        exact not_conditionIsKernels_large harray (by omega) hcond
      · exfalso
        by_cases htrie : info.type = 11
        · exact not_conditionIsKernels_trie htrie hcond
        · obtain ⟨rule, hrule, -⟩ := hcond
          have hexact : ¬(info.type = 1 ∨ info.type = 5 ∨ info.type = 9 ∨ info.type = 10) := by
            simpa [HASH_MAP_TYPES] using hhash
          have hindex : ¬(info.type = 2 ∨ info.type = 6) := by
            simpa [ARRAY_MAP_TYPES] using harray
          unfold kernelRule at hrule
          rw [if_neg hexact, if_neg hindex, if_neg htrie] at hrule
          cases hrule
  · rintro (hhash | ⟨harray, hmax⟩) P mapId hinfo -
    · exact conditionIsKernels_hash hinfo hhash
    · exact conditionIsKernels_array hinfo harray hmax

/-- A trie of routes: the lookup of an address misses the default route. -/
theorem trie_lookup_missed : ¬ LookupIsKernels ⟨"routes", 11, 8, 4, 10⟩ := fun h =>
  not_conditionIsKernels_trie rfl (h (lookupProgram _) 0 rfl (acceptedLookup _))

end Hornet
