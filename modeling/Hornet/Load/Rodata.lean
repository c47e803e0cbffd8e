import Hornet.Load.Link
import Hornet.Track.BssBytes
import Hornet.Track.Stack

/-!
Constant data. The `.rodata` of the linked objects stands in one blob, padded between
the objects, and a load from it gives a number if its offset is constant and bytes of an
array if it is not: whether both give the bytes of the object that the pointer is from.
-/

namespace Hornet

open Smt Lib

/-! ## The blob -/

/-- The bytes of an object start in the blob where its base says. -/
theorem drop_mergeRodata {blob : List UInt8} {loads : List Load} {i : Nat} {load : Load}
    {base : Nat} (hi : loads[i]? = some load) (hbase : (mergeRodata blob loads).2[i]? = some base) :
    ∃ tail, (mergeRodata blob loads).1.drop base = load.rodata ++ tail := by
  have hkept : ∀ (loads : List Load) (blob : List UInt8),
      ∃ tail, (mergeRodata blob loads).1 = blob ++ tail := by
    intro loads
    induction loads with
    | nil => exact fun blob => ⟨[], (List.append_nil blob).symm⟩
    | cons load loads ih =>
        intro blob
        obtain ⟨tail, htail⟩ := ih (blob ++ paddedRodata load)
        exact ⟨paddedRodata load ++ tail, by rw [mergeRodata, htail, List.append_assoc]⟩
  induction loads generalizing blob i with
  | nil => cases hi
  | cons first loads ih =>
      cases i with
      | zero =>
          cases hi
          cases hbase
          obtain ⟨tail, htail⟩ := hkept loads (blob ++ paddedRodata load)
          refine ⟨List.replicate ((8 - load.rodata.length % 8) % 8) 0 ++ tail, ?_⟩
          rw [mergeRodata, htail, List.append_assoc, List.drop_left, paddedRodata,
            List.append_assoc]
      | succ i => exact ih hi hbase

/-- The bytes of an object, read from its base on. -/
theorem window_mergeRodata {blob : List UInt8} {loads : List Load} {i : Nat} {load : Load}
    {base : Nat} (hi : loads[i]? = some load) (hbase : (mergeRodata blob loads).2[i]? = some base)
    {a size : Nat} (hsize : 0 < size) (hfit : a + size ≤ load.rodata.length) :
    ((mergeRodata blob loads).1.drop (base + a)).take size = (load.rodata.drop a).take size ∧
      base + a + size ≤ (mergeRodata blob loads).1.length := by
  obtain ⟨tail, htail⟩ := drop_mergeRodata hi hbase
  have hlength := congrArg List.length htail
  rw [List.length_drop, List.length_append] at hlength
  constructor
  · rw [← List.drop_drop, htail, List.drop_append_of_le_length (by omega),
      List.take_append_of_le_length (by rw [List.length_drop]; omega)]
  · omega

/-! ## The array -/

theorem bytesNat_eq_joinNat (bs : List UInt8) :
    bytesNat bs = joinNat (bs.map UInt8.toBitVec) := by
  induction bs with
  | nil => rfl
  | cons b bs ih =>
      rw [bytesNat, ih]
      rfl

theorem rodataArray_concat (data : List UInt8) (x : UInt8) :
    rodataArray (data ++ [x]) =
      if x ≠ 0 then
        .store (rodataArray data) (bvVal data.length RODATA_ADDR_BITS) (bvVal x.toNat 8)
      else rodataArray data := by
  simp [rodataArray, List.zipIdx_append]

/-- The array has the bytes of the data as far as its addresses go. -/
theorem eval_rodataArray (m : ZModel) {data : List UInt8} (hlen : data.length ≤ 2 ^ RODATA_ADDR_BITS)
    {i : Nat} (hi : i < 2 ^ RODATA_ADDR_BITS) :
    (rodataArray data).eval m (BitVec.ofNat RODATA_ADDR_BITS i) = (data.getD i 0).toBitVec := by
  induction data using List.reverseRecOn with
  | nil => rfl
  | append_singleton data x ih =>
      rw [List.length_append, List.length_singleton] at hlen
      have hold := ih (by omega)
      have hat : BitVec.ofNat RODATA_ADDR_BITS i = (bvVal data.length RODATA_ADDR_BITS).eval m ↔
          i = data.length := by
        rw [eval_bvVal, BitVec.ofInt_natCast, ← BitVec.toNat_inj, BitVec.toNat_ofNat,
          BitVec.toNat_ofNat, Nat.mod_eq_of_lt hi, Nat.mod_eq_of_lt (by omega)]
      have hbyte : (bvVal x.toNat 8).eval m = x.toBitVec := by
        rw [eval_bvVal, BitVec.ofInt_natCast]
        exact BitVec.ofNat_toNat _ _
      rw [rodataArray_concat]
      by_cases hlast : i = data.length
      · have hget : (data ++ [x]).getD i 0 = x := by simp [hlast]
        have hbeyond : data.getD i 0 = 0 := by simp [hlast]
        rw [hget]
        by_cases hx : x ≠ 0
        · rw [if_pos hx, Term.eval_store, if_pos (hat.mpr hlast), hbyte]
        · rw [if_neg hx, hold, hbeyond, not_not.mp hx]
      · have hget : (data ++ [x]).getD i 0 = data.getD i 0 := by
          rcases Nat.lt_or_ge i data.length with hlt | hge
          · simp [List.getElem?_append_left, hlt]
          · simp [List.getElem?_append_right, hge, Nat.sub_ne_zero_of_lt (by omega : data.length < i)]
        rw [hget, ← hold]
        split
        · rw [Term.eval_store, if_neg (mt hat.mp hlast)]
        · rfl

/-- The number that bytes of the array make up. -/
theorem getBytes_rodataArray (m : ZModel) {data : List UInt8}
    (hlen : data.length ≤ 2 ^ RODATA_ADDR_BITS) {a size : Nat} (hfit : a + size ≤ data.length) :
    getBytes ((rodataArray data).eval m) (BitVec.ofNat RODATA_ADDR_BITS a) size =
      bytesNat ((data.drop a).take size) := by
  rw [Bytes.getBytes_eq_joinNat, bytesNat_eq_joinNat]
  congr 1
  apply List.ext_getElem
  · simp
    omega
  · intro i h₁ h₂
    have hin : i < size := by simpa using h₁
    have haddr : BitVec.ofNat RODATA_ADDR_BITS a + BitVec.ofNat RODATA_ADDR_BITS i =
        BitVec.ofNat RODATA_ADDR_BITS (a + i) := (BitVec.ofNat_add _ _).symm
    have hlt : a + i < data.length := by omega
    have hget : data[a + i]? = some data[a + i] := List.getElem?_eq_getElem hlt
    simp [haddr, eval_rodataArray m hlen (by omega : a + i < 2 ^ RODATA_ADDR_BITS), hget]

/-! ## Loads -/

/-- Pointers that differ at most in their offsets and in what facts know of them. -/
structure SameRodata (q p : PTR Expr) : Prop where
  type : p.ptrType = q.ptrType
  base : p.rodataOffset = q.rodataOffset
  data : p.rodataData = q.rodataData
  nonNull : p.checkedNull = q.checkedNull

theorem sameRodata_self (q : PTR Expr) : SameRodata q q :=
  ⟨rfl, rfl, rfl, rfl⟩

/-- Arithmetic moves a pointer within its data. -/
theorem sameRodata_ptrAlu {idx : Nat} {code : AluOp} {b b' : Block} {o o' : Obj}
    {q p : PTR Expr} {src : Option Expr} (hq : q.ptrType = .RODATA) (hp : SameRodata q p)
    (ho : o.val = .ptr p) (h : ptrAlu idx code b o p src = .ok (o', b')) :
    ∃ p', o'.val = .ptr p' ∧ SameRodata q p' := by
  have htype : p.ptrType = .RODATA := hp.type.trans hq
  have hother : ∀ o', otherAlu idx code p src = .ok o' → ∃ p', o'.val = .ptr p' ∧ SameRodata q p' := by
    intro o' h
    unfold otherAlu at h
    split at h
    · cases h
      exact ⟨_, rfl, hp.type, hp.base, hp.data, hp.nonNull⟩
    · split at h
      · cases h
        exact ⟨_, rfl, hp.type, hp.base, hp.data, hp.nonNull⟩
      · cases h
  unfold ptrAlu at h
  rcases ite_eq_ok h with ⟨-, h⟩ | ⟨-, h⟩
  · cases h
    exact ⟨p, ho, hp⟩
  · rcases ite_eq_ok h with ⟨-, h⟩ | ⟨-, h⟩
    · cases h
    · rw [if_neg (by rw [htype]; decide), htype] at h
      cases hres : otherAlu idx code p src with
      | error e =>
          rw [hres] at h
          cases h
      | ok x =>
          rw [hres] at h
          cases h
          exact hother _ hres

/-- The address that a load reads, from the start of the object's bytes. A constant
offset is an exact sum, a variable one is added as the machine does. -/
def rodataAddr (offset : Int) (p : PTR Expr) (insOff : Int) (v : Nat) : Int :=
  match p.varOff with
  | none => offset + (p.off + insOff)
  | some _ => machineOffset (offset + (p.off + insOff)) v

/-- Loads through `p` that lie inside `data` give the bytes of `data`. -/
def ReadsOwn (data : List UInt8) (offset : Int) (p : PTR Expr) : Prop :=
  ∀ (maps : List MapInfo) (R : Option (Reads maps)) (blk : Option Nat) (st : Z3State maps)
    (m : ZModel) (idx : Nat) (b : Block) (insOff : Int) (size : Nat) (vo : Option ZBv) (a : Nat),
    IsAccess size → optToZ3 R blk st p.varOff = .ok vo →
    rodataAddr offset p insOff (varDist m vo) = a → a + size ≤ data.length →
    ∃ o t, load idx b p insOff size = .ok (o, b) ∧ exprToZ3 R blk st o.val = .ok t ∧
      t.toNat m = bytesNat ((data.drop a).take size)

/-- Loads of one size through `p` and through `p'` that read at the same place of `n` bytes
give the same value. -/
def FormsAgree (n : Nat) (offset : Int) (p p' : PTR Expr) : Prop :=
  ∀ (maps : List MapInfo) (R : Option (Reads maps)) (blk : Option Nat) (st : Z3State maps)
    (m : ZModel) (idx idx' : Nat) (b b' : Block) (insOff insOff' : Int) (size : Nat)
    (vo vo' : Option ZBv) (a : Nat) (o o' : Obj) (t t' : ZBv),
    IsAccess size → optToZ3 R blk st p.varOff = .ok vo → optToZ3 R blk st p'.varOff = .ok vo' →
    rodataAddr offset p insOff (varDist m vo) = a →
    rodataAddr offset p' insOff' (varDist m vo') = a → a + size ≤ n →
    load idx b p insOff size = .ok (o, b) → load idx' b' p' insOff' size = .ok (o', b') →
    exprToZ3 R blk st o.val = .ok t → exprToZ3 R blk st o'.val = .ok t' → t.toNat m = t'.toNat m

theorem formsAgree_of_readsOwn {data : List UInt8} {offset : Int} {p p' : PTR Expr}
    (hp : ReadsOwn data offset p) (hp' : ReadsOwn data offset p') :
    FormsAgree data.length offset p p' := by
  intro maps R blk st m idx idx' b b' insOff insOff' size vo vo' a o o' t t' hsize hvo hvo' haddr
    haddr' hfit hload hload' ht ht'
  obtain ⟨o₁, t₁, hload₁, ht₁, hvalue⟩ :=
    hp maps R blk st m idx b insOff size vo a hsize hvo haddr hfit
  obtain ⟨o₂, t₂, hload₂, ht₂, hvalue'⟩ :=
    hp' maps R blk st m idx' b' insOff' size vo' a hsize hvo' haddr' hfit
  cases hload.symm.trans hload₁
  cases hload'.symm.trans hload₂
  cases ht.symm.trans ht₁
  cases ht'.symm.trans ht₂
  rw [hvalue, hvalue']

/-- A load at a constant offset. -/
theorem readsOwn_constant {data blob : List UInt8} {base : Nat} {offset : Int} {p : PTR Expr}
    (hwindow : ∀ a size, 0 < size → a + size ≤ data.length →
      (blob.drop (base + a)).take size = (data.drop a).take size)
    (htype : p.ptrType = .RODATA) (hbase : p.rodataOffset = some (offset + base))
    (hdata : p.rodataData = blob) (hnull : p.checkedNull = some false) (hvar : p.varOff = none) :
    ReadsOwn data offset p := by
  intro maps R blk st m idx b insOff size vo a hsize hvo haddr hfit
  have hpos : 0 < size ∧ size ≤ 8 := by
    unfold IsAccess at hsize
    omega
  have hsum : offset + (p.off + insOff) = a := by
    rw [rodataAddr, hvar] at haddr
    exact haddr
  have hplace : offset + base + (p.off + insOff) = ((base + a : Nat) : Int) := by omega
  have hvalue : rodataLoad p (p.off + insOff) size =
      .num (bytesNat ((data.drop a).take size)) size (-1) := by
    rw [rodataLoad, hvar, hbase, hdata, Option.getD_some, hplace]
    dsimp only
    rw [if_pos (Int.natCast_nonneg _), Int.toNat_natCast, hwindow a size hpos.1 hfit]
  refine ⟨.fresh idx (rodataLoad p (p.off + insOff) size), _, ?_, by rw [hvalue]; rfl, ?_⟩
  · rw [load, hnull, htype]
    rfl
  · have hlt : bytesNat ((data.drop a).take size) < 2 ^ (size * 8) := by
      apply lt_of_lt_of_le (bytesNat_lt _)
      apply Nat.pow_le_pow_right (by decide)
      rw [List.length_take]
      omega
    rw [Bv.toNat_mk, eval_bvVal, BitVec.ofInt_natCast, BitVec.toNat_ofNat, Nat.mod_eq_of_lt hlt]

/-- A load at a variable offset, from a blob that the addresses of the array reach. -/
theorem readsOwn_variable {data blob : List UInt8} {base : Nat} {offset : Int} {p : PTR Expr}
    (hwindow : ∀ a size, 0 < size → a + size ≤ data.length →
      (blob.drop (base + a)).take size = (data.drop a).take size ∧
        base + a + size ≤ blob.length)
    (hlen : blob.length ≤ 2 ^ RODATA_ADDR_BITS)
    (htype : p.ptrType = .RODATA) (hbase : p.rodataOffset = some (offset + base))
    (hdata : p.rodataData = blob) (hnull : p.checkedNull = some false) {v : Expr}
    (hvar : p.varOff = some v) : ReadsOwn data offset p := by
  intro maps R blk st m idx b insOff size vo a hsize hvo haddr hfit
  have hpos : 0 < size := by
    unfold IsAccess at hsize
    omega
  obtain ⟨hbytes, hin⟩ := hwindow a size hpos hfit
  have hsum : machineOffset (offset + (p.off + insOff)) (varDist m vo) = a := by
    rw [rodataAddr, hvar] at haddr
    exact Int.ofNat_inj.mp haddr
  have hplace : BitVec.ofInt RODATA_ADDR_BITS (varDist m vo + (offset + base + (p.off + insOff))) =
      BitVec.ofNat RODATA_ADDR_BITS (base + a) := by
    have hsplit : (varDist m vo + (offset + base + (p.off + insOff)) : Int) =
        base + (varDist m vo + (offset + (p.off + insOff))) := by omega
    rw [hsplit, BitVec.ofInt_add, ofInt_eq_machineOffset (by decide), hsum, BitVec.ofInt_natCast,
      BitVec.ofNat_add]
  have hload : rodataLoad p (p.off + insOff) size =
      .rodataVal blob (offset + base + (p.off + insOff)) p.varOff size := by
    rw [rodataLoad, hvar, hbase, hdata, Option.getD_some]
  obtain ⟨t, ht⟩ : ∃ t, concatCells (selectBytes (rodataArray blob)
      (addrTerm RODATA_ADDR_BITS (offset + base + (p.off + insOff)) vo) size) = .ok t :=
    concatCells_ok _ _ hpos
  refine ⟨.fresh idx (rodataLoad p (p.off + insOff) size), t, ?_, ?_, ?_⟩
  · rw [load, hnull, htype]
    rfl
  · rw [Obj.fresh, hload]
    unfold exprToZ3
    rw [hvo]
    exact ht
  · rw [toNat_concatCells ht, cellsNat_selectBytes, eval_addrTerm, hplace,
      getBytes_rodataArray m hlen hin, hbytes]

/-- A load through a relocated pointer gives the bytes of the object that the pointer is
from, at a constant offset always and at a variable one if the addresses of the array
reach all of the blob. -/
theorem rodata_reads_own {loads : List Load} {tails : List TailSpec} {out : Linked}
    (h : link loads tails = .ok out) {i k : Nat} {load : Load} {ins : Instr} {offset : Int}
    (hi : loads[i]? = some load) (hk : load.instrs[k]? = some ins)
    (hreloc : ins.reloc = some (.rodata offset)) :
    ∃ linked q, out.instrs[loadStart loads i + k]? = some linked ∧
      wideLoad out.rodata linked = .ptr q ∧ q.ptrType = .RODATA ∧
      (∀ p, SameRodata q p → (p.varOff ≠ none → out.rodata.length ≤ 2 ^ RODATA_ADDR_BITS) →
        ReadsOwn load.rodata offset p) ∧
      ∀ p p', SameRodata q p → SameRodata q p' → out.rodata.length ≤ 2 ^ RODATA_ADDR_BITS →
        FormsAgree load.rodata.length offset p p' := by
  obtain ⟨remaps, r, -, -, -, hbase, hat⟩ := getElem?_link h hi hk
  have hblob : out.rodata = (mergeRodata [] loads).1 := rodata_link h
  have hwindow : ∀ a size, 0 < size → a + size ≤ load.rodata.length →
      (out.rodata.drop (r.rodataBase + a)).take size = (load.rodata.drop a).take size ∧
        r.rodataBase + a + size ≤ out.rodata.length := by
    intro a size hsize hfit
    rw [hblob]
    exact window_mergeRodata hi hbase hsize hfit
  let q : PTR Expr :=
    { ptrType := .RODATA, id := NO_FACT_ID, rodataOffset := some (offset + r.rodataBase)
      rodataData := out.rodata }
  have hreads : ∀ p, SameRodata q p →
      (p.varOff ≠ none → out.rodata.length ≤ 2 ^ RODATA_ADDR_BITS) →
      ReadsOwn load.rodata offset p := by
    intro p hp hlen
    cases hvar : p.varOff with
    | none =>
        exact readsOwn_constant (fun a size hsize hfit => (hwindow a size hsize hfit).1) hp.type
          hp.base hp.data hp.nonNull hvar
    | some v =>
        have hlen := hlen (by rw [hvar]; nofun)
        exact readsOwn_variable hwindow hlen hp.type hp.base hp.data hp.nonNull hvar
  refine ⟨_, q, hat, ?_, rfl, hreads, fun p p' hp hp' hlen => ?_⟩
  · simp [wideLoad, retag, hreloc, retagReloc, q]
  · exact formsAgree_of_readsOwn (hreads p hp fun _ => hlen) (hreads p' hp' fun _ => hlen)

/-- A program that takes the address of its constants, which are `data`. -/
def constantsLoad (entry : String) (maps : List MapDef) (data : List UInt8) : Load :=
  { instrs := [
      { Instr.nop with opcodeClass := .LD, opcodeSz := .DW, dstReg := 1, wideInstr := true
                       reloc := some (.rodata 0) },
      .nop,
      { Instr.nop with opcodeClass := .JMP, jmpCode := .EXIT }]
    maps := maps
    rodata := data
    bss := Dict.empty
    entry := entry
    entryIdx := 0
    path := entry ++ ".o"
    sectionName := "xdp" }

/-- A program with a callee, both with constants. -/
def constantsLoads : List Load :=
  [constantsLoad "main" [{ id := 0, name := some "progs", type := 3, keySize := 4
                           valueSize := 4, maxEntries := 1 }] [1],
    constantsLoad "next" [] [7, 9]]

def constantsTails : List TailSpec := [{ path := "next.o", entry := "next" }]

/-- A scalar that is not known is added to a pointer. -/
theorem addUnknown (q : PTR Expr) (htype : q.ptrType = .RODATA)
    (hnull : q.checkedNull = some false) :
    ptrAlu 4 .ADD { num := 0, start := 0, «end» := 5 } (.fresh 3 (.ptr q)) q
        (some (.scalar 8 2)) =
      .ok (.fresh 4 (.ptr { q with varOff := q.addVarOff (some (.scalar 8 2)) .ADD .b8 4 }),
        { num := 0, start := 0, «end» := 5 }) := by
  simp [ptrAlu, otherAlu, htype, hnull, Expr.num?]
  rfl

/-- A callee reads its own constants behind those of the main object, also through a pointer
to which a value that is not known was added. -/
theorem rodata_reads_own_callee :
    ∃ out linked q, link constantsLoads constantsTails = .ok out ∧
      out.instrs[3]? = some linked ∧ wideLoad out.rodata linked = .ptr q ∧
      ReadsOwn [7, 9] 0 q ∧
      ∃ o b p, ptrAlu 4 .ADD { num := 0, start := 0, «end» := 5 } (.fresh 3 (.ptr q)) q
          (some (.scalar 8 2)) = .ok (o, b) ∧ o.val = .ptr p ∧ p.varOff.isSome ∧
        ReadsOwn [7, 9] 0 p ∧ FormsAgree 2 0 q p := by
  obtain ⟨out, linked, q, hlink, hat, hptr, hnull, hvar, hlen⟩ :
      ∃ out linked q, link constantsLoads constantsTails = .ok out ∧
        out.instrs[3]? = some linked ∧ wideLoad out.rodata linked = .ptr q ∧
        q.checkedNull = some false ∧ q.varOff = none ∧ out.rodata.length ≤ 2 ^ RODATA_ADDR_BITS :=
    ⟨_, _, _, rfl, rfl, rfl, rfl, rfl, by decide⟩
  have hcallee : constantsLoads[1]? = some (constantsLoad "next" [] [7, 9]) := rfl
  have hfirst : (constantsLoad "next" [] [7, 9]).instrs[0]? = some _ := rfl
  obtain ⟨linked', q', hat', hptr', htype, hreads, hforms⟩ :=
    rodata_reads_own hlink hcallee hfirst rfl
  cases hat.symm.trans hat'
  cases hptr.symm.trans hptr'
  have hown := sameRodata_self q
  have hadd := addUnknown q htype hnull
  obtain ⟨p, hp, hmoved⟩ := sameRodata_ptrAlu htype hown rfl hadd
  cases hp
  refine ⟨out, linked, q, hlink, hat, hptr, hreads q hown (fun h => absurd hvar h), _, _, _, hadd,
    rfl, ?_, hreads _ hmoved fun _ => hlen, hforms q _ hown hmoved hlen⟩
  show (q.addVarOff (some (.scalar 8 2)) .ADD .b8 4).isSome
  rw [PTR.addVarOff, hvar]
  rfl

/-! ## A blob beyond the addresses of the array -/

section Beyond

/-- Every load through a relocated pointer gives the bytes of the object it is from, and
the two forms of a load agree. -/
def RodataSurvives (loads : List Load) (out : Linked) : Prop :=
  ∀ (i k : Nat) (load : Load) (ins linked : Instr) (offset : Int) (q : PTR Expr),
    loads[i]? = some load → load.instrs[k]? = some ins → ins.reloc = some (.rodata offset) →
    out.instrs[loadStart loads i + k]? = some linked → wideLoad out.rodata linked = .ptr q →
    (∀ p, SameRodata q p → ReadsOwn load.rodata offset p) ∧
      ∀ p p', SameRodata q p → SameRodata q p' → FormsAgree load.rodata.length offset p p'

theorem rodataArray_append_zeros (data : List UInt8) (n : Nat) :
    rodataArray (data ++ List.replicate n 0) = rodataArray data := by
  induction n with
  | zero => rw [List.replicate_zero, List.append_nil]
  | succ n ih =>
      rw [List.replicate_succ', ← List.append_assoc, rodataArray_concat, if_neg (by decide), ih]

/-- The byte behind those that the addresses reach takes the place of the first one. -/
theorem eval_rodataArray_beyond (m : ZModel) {n pad : Nat} (hn : n + 1 = 2 ^ RODATA_ADDR_BITS) :
    (rodataArray (List.replicate (n + 1) 0 ++ [2] ++ List.replicate pad 0)).eval m 0 = 2#8 := by
  have hwrap : (bvVal (List.replicate (n + 1) (0 : UInt8)).length RODATA_ADDR_BITS).eval m = 0 := by
    rw [eval_bvVal, BitVec.ofInt_natCast, List.length_replicate, hn]
    decide
  rw [rodataArray_append_zeros, rodataArray_concat, if_pos (by decide), Term.eval_store, hwrap,
    if_pos rfl]
  rfl

theorem not_readsOwn_beyond {n pad : Nat} (hn : n + 1 = 2 ^ RODATA_ADDR_BITS) {q : PTR Expr}
    (htype : q.ptrType = .RODATA) (hbase : q.rodataOffset = some 0) (hoff : q.off = 0)
    (hnull : q.checkedNull = some false)
    (hdata : q.rodataData = List.replicate (n + 1) 0 ++ [2] ++ List.replicate pad 0) :
    ¬ ReadsOwn (List.replicate (n + 1) 0 ++ [2]) 0 { q with varOff := some (.scalar 8 0) } := by
  intro hreads
  let p : PTR Expr := { q with varOff := some (.scalar 8 0) }
  let vo : ZBv := ⟨64, .var (.scalar 0) (.bv 64)⟩
  let b : Block := { num := 0, start := 0, «end» := 0 }
  have haddr : rodataAddr 0 p 0 (varDist zeroModel (some vo)) = (0 : Nat) := by
    show (machineOffset (0 + (q.off + 0)) 0 : Int) = _
    rw [hoff]
    rfl
  have hload : load 0 b p 0 1 =
      .ok (.fresh 0 (.rodataVal q.rodataData 0 (some (.scalar 8 0)) 1), b) := by
    show (if q.checkedNull ≠ some false then _ else _) = _
    rw [if_neg (not_not.mpr hnull)]
    dsimp only
    rw [htype]
    show Except.ok _ = _
    simp only [rodataLoad, p, hbase, hoff]
    rfl
  obtain ⟨o, t, hload', ht, hvalue⟩ := hreads [] none none (makeInitState []) zeroModel 0 b 0 1
    (some vo) 0 (.inl rfl) rfl haddr (by simp)
  cases hload.symm.trans hload'
  have hcells : concatCells (selectBytes (rodataArray q.rodataData)
      (addrTerm RODATA_ADDR_BITS 0 (some vo)) 1) = .ok t := by
    rw [← ht]
    rfl
  have hzero : BitVec.ofInt RODATA_ADDR_BITS (varDist zeroModel (some vo) + 0) = 0 := rfl
  have htwo : t.toNat zeroModel = 2 := by
    have hone : ∀ mem : BitVec RODATA_ADDR_BITS → BitVec 8, getBytes mem 0 1 = (mem 0).toNat := by
      intro mem
      simp [getBytes]
    rw [toNat_concatCells hcells, cellsNat_selectBytes, eval_addrTerm, hzero, hdata, hone,
      eval_rodataArray_beyond zeroModel hn]
    rfl
  rw [htwo, List.replicate_succ, List.drop_zero] at hvalue
  exact absurd hvalue (by simp [bytesNat])

/-- A program whose constants are zero but for one beyond the addresses of the array. -/
theorem rodata_beyond_lost :
    ∃ loads out, link loads [] = .ok out ∧ ¬ RodataSurvives loads out := by
  obtain ⟨n, hn⟩ : ∃ n, n + 1 = 2 ^ RODATA_ADDR_BITS := ⟨2 ^ RODATA_ADDR_BITS - 1, by decide⟩
  let data : List UInt8 := List.replicate (n + 1) 0 ++ [2]
  have hlinked : ∀ data, ∃ out, link [constantsLoad "main" [] data] [] = .ok out ∧
      out.rodata = paddedRodata (constantsLoad "main" [] data) ∧ ∃ linked, out.instrs[0]? = some linked ∧
        linked.reloc = some (.rodata 0) := fun data => ⟨_, rfl, rfl, _, rfl, rfl⟩
  obtain ⟨out, hout, hblob, linked, hat, hreloc⟩ := hlinked data
  refine ⟨[constantsLoad "main" [] data], out, hout, fun hsurvives => ?_⟩
  let q : PTR Expr :=
    { ptrType := .RODATA, id := NO_FACT_ID, rodataOffset := some 0, rodataData := out.rodata }
  have hq : wideLoad out.rodata linked = .ptr q := by
    rw [wideLoad, hreloc]
  obtain ⟨hreads, -⟩ := hsurvives 0 0 (constantsLoad "main" [] data) _ linked 0 q rfl rfl rfl hat hq
  apply not_readsOwn_beyond hn (q := q) rfl rfl rfl rfl hblob
  exact hreads _ ⟨rfl, rfl, rfl, rfl⟩

end Beyond

end Hornet
