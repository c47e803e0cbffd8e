import Hornet.Bpf.Cfg
import Hornet.Load.Object

/-!
Linking. The instructions of the main object and of its tail callees are put one
after the other, their maps are merged by name and their globals into one table,
and the relocated operands follow their map or global into the merged tables.
-/

namespace Hornet

open Lib (Dict)

inductive LinkError where
  | tailCount (loads tails : Nat)
  | chained (entry : String) (idx : Nat)
  | notFirst (entry sectionName : String) (idx : Nat)
  | mapDiffers (name : Option String)
  | noInstructions (path entry : String)
  | fallsOut (path sectionName : String)
  | notProgArray (name : String) (type : Nat)
  | noMapNamed (name : String)
  | noProgArray
  | whichProgArray (n : Nat)
  | sameMap (first second : String)
  deriving DecidableEq, Repr

structure TailSpec where
  path : String
  entry : String
  mapName : Option String := none
  slot : Option Nat := none
  deriving DecidableEq, Repr

/-! ## Maps -/

/-- What a map is known by: its name or, if it has none, its place in its object. -/
inductive MapKey where
  | named (name : String)
  | unnamed (path : String) (id : Nat)
  deriving DecidableEq, Repr

def mapKey (info : MapDef) (path : String) : MapKey :=
  match info.name with
  | some name => if name = "" then .unnamed path info.id else .named name
  | none => .unnamed path info.id

/-- The fields in which two declarations of a map have to agree. -/
def MapDef.geometry (info : MapDef) : Nat × Nat × Nat × Nat :=
  (info.type, info.keySize, info.valueSize, info.maxEntries)

/-- The merged maps, their index, and the ids of the current object's maps in it. -/
structure MergedMaps where
  merged : List MapDef := []
  index : Dict MapKey Nat := Dict.empty
  remap : Dict Nat Nat := Dict.empty

def mergeMap (path : String) (m : MergedMaps) (info : MapDef) : Except LinkError MergedMaps :=
  let key := mapKey info path
  match m.index.get? key with
  | none =>
      let new := m.merged.length
      pure
        { merged := m.merged ++ [{ info with id := new }]
          index := m.index.set key new
          remap := m.remap.set info.id new }
  | some hit =>
      if (m.merged[hit]?).map MapDef.geometry ≠ some info.geometry then throw (.mapDiffers info.name)
      else pure { m with remap := m.remap.set info.id hit }

/-- Merges the maps of the objects one after the other into those of `m`. -/
def mergeMaps (m : MergedMaps) : List Load → Except LinkError (List MapDef × List (Dict Nat Nat))
  | [] => pure (m.merged, [])
  | load :: loads => do
      let m ← load.maps.foldlM (mergeMap load.path) { m with remap := Dict.empty }
      let (merged, remaps) ← mergeMaps m loads
      pure (merged, m.remap :: remaps)

/-! ## Globals -/

/-- The merged `.bss` table and the keys that the current object's symbols were given. -/
structure MergedBss where
  bss : Dict String GlobalSym := Dict.empty
  rename : Dict String String := Dict.empty

def mergeSymbol (entry : String) (g : MergedBss) (x : String × GlobalSym) : MergedBss :=
  match g.bss.get? x.1 with
  | none => { g with bss := g.bss.set x.1 x.2 }
  | some «have» =>
      if «have».size = x.2.size then g
      else
        let new := entry ++ "." ++ x.1
        { bss := g.bss.set new x.2, rename := g.rename.set x.1 new }

/-- The object's symbols are merged into the table. -/
def mergeObject (bss : Dict String GlobalSym) (load : Load) : MergedBss :=
  load.bss.entries.foldl (mergeSymbol load.entry) { bss := bss }

def mergeBss (bss : Dict String GlobalSym) :
    List Load → Dict String GlobalSym × List (Dict String String)
  | [] => (bss, [])
  | load :: loads =>
      let g := mergeObject bss load
      let (bss, renames) := mergeBss g.bss loads
      (bss, g.rename :: renames)

/-- The bytes of `.rodata`, padded to a multiple of eight unless there are none. -/
def paddedRodata (load : Load) : List UInt8 :=
  load.rodata ++ List.replicate ((8 - load.rodata.length % 8) % 8) 0

/-- The merged `.rodata`, and where the bytes of each object start. -/
def mergeRodata (blob : List UInt8) : List Load → List UInt8 × List Nat
  | [] => (blob, [])
  | load :: loads =>
      let (all, bases) := mergeRodata (blob ++ paddedRodata load) loads
      (all, blob.length :: bases)

/-! ## Instructions -/

/-- The operand of an instruction after the tables have been merged. -/
def retagReloc (mapRemap : Dict Nat Nat) (bssRename : Dict String String) (rodataBase : Nat) :
    Reloc → Reloc
  | .map tag => .map ((mapRemap.get? tag).getD tag)
  | .bss tag offset => .bss (tag.map fun tag => (bssRename.get? tag).getD tag) offset
  | .rodata offset => .rodata (offset + rodataBase)

def retag (mapRemap : Dict Nat Nat) (bssRename : Dict String String) (rodataBase : Nat)
    (ins : Instr) : Instr :=
  { ins with reloc := ins.reloc.map (retagReloc mapRemap bssRename rodataBase) }

/-- The map that a tail callee is loaded into. -/
def progArrayId (maps : List MapDef) (want : Option String) : Except LinkError Nat :=
  let progs := maps.filter (·.type = BPF_MAP_TYPE_PROG_ARRAY)
  match want with
  | some name =>
      match progs.find? (·.name = some name) with
      | some m => pure m.id
      | none =>
          match maps.find? (·.name = some name) with
          | some m => throw (.notProgArray name m.type)
          | none => throw (.noMapNamed name)
  | none =>
      match progs with
      | [] => throw .noProgArray
      | [m] => pure m.id
      | _ => throw (.whichProgArray progs.length)

/-- A tail callee calls no other program and starts its section. -/
def checkCallee (load : Load) (tail : TailSpec) : Except LinkError Unit :=
  match load.instrs.findIdx? (·.isTailCall) with
  | some idx => throw (.chained tail.entry idx)
  | none =>
      if load.entryIdx ≠ 0 then throw (.notFirst tail.entry load.sectionName load.entryIdx)
      else pure ()

/-- Control does not fall out of the object's instructions. -/
def checkBody (load : Load) (last : Bool) : Except LinkError Unit :=
  match load.instrs.getLast? with
  | none => throw (.noInstructions load.path load.entry)
  | some ins =>
      if !last && !ins.isExit then throw (.fallsOut load.path load.sectionName) else pure ()

/-- The part of a linked program that one object makes. -/
def progRegion (maps : List MapDef) (load : Load) (tail : Option TailSpec) (base : Nat) :
    Except LinkError ProgRegion := do
  let mapId ← match tail with
    | none => pure none
    | some tail => (progArrayId maps tail.mapName).map some
  pure
    { name := load.entry, start := base, «end» := base + load.instrs.length - 1
      slot := tail.bind (·.slot), mapId := mapId }

/-- How the operands of an object follow the merge. -/
structure Retags where
  mapRemap : Dict Nat Nat
  bssRename : Dict String String
  rodataBase : Nat

/-- An object, how it is retagged, and where it is loaded. -/
abbrev LinkPart := Load × Retags × Option TailSpec

def linkParts (maps : List MapDef) (base : Nat) :
    List LinkPart → Except LinkError (List Instr × List ProgRegion)
  | [] => pure ([], [])
  | (load, r, tail) :: parts => do
      checkBody load parts.isEmpty
      let region ← progRegion maps load tail base
      let body := load.instrs.map (retag r.mapRemap r.bssRename r.rodataBase)
      let (instrs, progs) ← linkParts maps (base + body.length) parts
      pure (body ++ instrs, region :: progs)

/-- No two callees are loaded into one map. -/
def checkClaimed (claimed : List ProgRegion) : List ProgRegion → Except LinkError Unit
  | [] => pure ()
  | r :: rest =>
      match claimed.find? (·.mapId = r.mapId) with
      | some clash => throw (.sameMap clash.name r.name)
      | none => checkClaimed (claimed ++ [r]) rest

/-- A linked program. -/
structure Linked where
  instrs : List Instr
  maps : List MapDef
  rodata : List UInt8
  bss : Dict String GlobalSym
  progs : List ProgRegion

/-- How each object is retagged once its maps are known by `remaps`. -/
def retagsOf (loads : List Load) (remaps : List (Dict Nat Nat)) : List Retags :=
  (remaps.zip ((mergeBss Dict.empty loads).2.zip (mergeRodata [] loads).2)).map fun x =>
    ⟨x.1, x.2.1, x.2.2⟩

def linkInput (loads : List Load) (tails : List TailSpec) (remaps : List (Dict Nat Nat)) :
    List LinkPart :=
  loads.zip ((retagsOf loads remaps).zip (none :: tails.map some))

def link (loads : List Load) (tails : List TailSpec) : Except LinkError Linked := do
  if loads.length ≠ tails.length + 1 then throw (.tailCount loads.length tails.length)
  else
    (loads.tail.zip tails).forM fun x => checkCallee x.1 x.2
    let (maps, remaps) ← mergeMaps {} loads
    let (instrs, progs) ← linkParts maps 0 (linkInput loads tails remaps)
    checkClaimed [] progs.tail
    pure
      { instrs := instrs, maps := maps, rodata := (mergeRodata [] loads).1
        bss := (mergeBss Dict.empty loads).1, progs := progs }

/-! ## What a successful link is made of -/

/-- Where the instructions of an object start. -/
def loadStart (loads : List Load) (i : Nat) : Nat :=
  ((loads.take i).map (·.instrs.length)).sum

theorem link_ok {loads : List Load} {tails : List TailSpec} {out : Linked}
    (h : link loads tails = .ok out) :
    ∃ remaps, loads.length = tails.length + 1 ∧ mergeMaps {} loads = .ok (out.maps, remaps) ∧
      linkParts out.maps 0 (linkInput loads tails remaps) = .ok (out.instrs, out.progs) := by
  unfold link at h
  split at h
  · cases h
  · rename_i hlen
    simp only [Lib.bind_eq_ok] at h
    obtain ⟨-, -, ⟨maps, remaps⟩, hmaps, ⟨instrs, progs⟩, hparts, -, -, hout⟩ := h
    cases hout
    exact ⟨remaps, not_not.mp hlen, hmaps, hparts⟩

theorem rodata_link {loads : List Load} {tails : List TailSpec} {out : Linked}
    (h : link loads tails = .ok out) : out.rodata = (mergeRodata [] loads).1 := by
  unfold link at h
  split at h
  · cases h
  · simp only [Lib.bind_eq_ok] at h
    obtain ⟨-, -, ⟨maps, remaps⟩, -, ⟨instrs, progs⟩, -, -, -, hout⟩ := h
    cases hout
    rfl

theorem length_mergeMaps {m : MergedMaps} {loads : List Load} {maps : List MapDef}
    {remaps : List (Dict Nat Nat)} (h : mergeMaps m loads = .ok (maps, remaps)) :
    remaps.length = loads.length := by
  induction loads generalizing m maps remaps with
  | nil =>
      cases h
      rfl
  | cons load loads ih =>
      simp only [mergeMaps, Lib.bind_eq_ok] at h
      obtain ⟨m', -, ⟨maps', remaps'⟩, hrest, hout⟩ := h
      cases hout
      rw [List.length_cons, List.length_cons, ih hrest]

theorem length_mergeBss (bss : Dict String GlobalSym) (loads : List Load) :
    (mergeBss bss loads).2.length = loads.length := by
  induction loads generalizing bss with
  | nil => rfl
  | cons load loads ih => simp only [mergeBss, List.length_cons, ih]

theorem length_mergeRodata (blob : List UInt8) (loads : List Load) :
    (mergeRodata blob loads).2.length = loads.length := by
  induction loads generalizing blob with
  | nil => rfl
  | cons load loads ih => simp only [mergeRodata, List.length_cons, ih]

theorem getElem?_linkInput {loads : List Load} {tails : List TailSpec}
    {remaps : List (Dict Nat Nat)} (hlen : loads.length = tails.length + 1)
    (hremaps : remaps.length = loads.length) {i : Nat} {load : Load} (hi : loads[i]? = some load) :
    ∃ r tail, (linkInput loads tails remaps)[i]? = some (load, r, tail) ∧
      remaps[i]? = some r.mapRemap ∧ (mergeBss Dict.empty loads).2[i]? = some r.bssRename ∧
      (mergeRodata [] loads).2[i]? = some r.rodataBase := by
  have hlt : i < loads.length := (List.getElem?_eq_some_iff.mp hi).1
  have hbss := length_mergeBss Dict.empty loads
  have hrodata := length_mergeRodata [] loads
  obtain ⟨remap, hremap⟩ : ∃ x, remaps[i]? = some x := by simp [hremaps, hlt]
  obtain ⟨rename, hrename⟩ : ∃ x, (mergeBss Dict.empty loads).2[i]? = some x := by simp [hbss, hlt]
  obtain ⟨base, hbase⟩ : ∃ x, (mergeRodata [] loads).2[i]? = some x := by simp [hrodata, hlt]
  obtain ⟨tail, htail⟩ : ∃ x, (none :: tails.map some)[i]? = some x := by simp [← hlen, hlt]
  refine ⟨⟨remap, rename, base⟩, tail, ?_, hremap, hrename, hbase⟩
  simp [linkInput, retagsOf, List.getElem?_zip_eq_some, hi, hremap, hrename, hbase, htail]

/-- The instructions of a part stand behind those of the parts before it. -/
theorem getElem?_linkParts {maps : List MapDef} {base : Nat} {parts : List LinkPart}
    {instrs : List Instr} {progs : List ProgRegion}
    (h : linkParts maps base parts = .ok (instrs, progs)) {i k : Nat} {load : Load} {r : Retags}
    {tail : Option TailSpec} {ins : Instr} (hi : parts[i]? = some (load, r, tail))
    (hk : load.instrs[k]? = some ins) :
    instrs[loadStart (parts.map (·.1)) i + k]? =
      some (retag r.mapRemap r.bssRename r.rodataBase ins) := by
  induction parts generalizing base instrs progs i with
  | nil => simp at hi
  | cons part parts ih =>
      obtain ⟨load', r', tail'⟩ := part
      simp only [linkParts, Lib.bind_eq_ok] at h
      obtain ⟨-, -, region, -, ⟨instrs', progs'⟩, hrest, hout⟩ := h
      cases hout
      cases i with
      | zero =>
          cases hi
          have hlt : k < load.instrs.length := (List.getElem?_eq_some_iff.mp hk).1
          have hmap : (load.instrs.map (retag r.mapRemap r.bssRename r.rodataBase))[k]? =
              some (retag r.mapRemap r.bssRename r.rodataBase ins) := by
            rw [List.getElem?_map, hk, Option.map_some]
          simpa [loadStart, List.getElem?_append_left, hlt] using hmap
      | succ i =>
          have hrec := ih hrest (by simpa using hi)
          have hstart : loadStart (((load', r', tail') :: parts).map (·.1)) (i + 1) =
              load'.instrs.length + loadStart (parts.map (·.1)) i := by
            simp [loadStart]
          rw [hstart, Nat.add_assoc, List.getElem?_append_right (by simp)]
          simpa using hrec

theorem map_fst_linkInput {loads : List Load} {tails : List TailSpec}
    {remaps : List (Dict Nat Nat)} (hlen : loads.length = tails.length + 1)
    (hremaps : remaps.length = loads.length) :
    (linkInput loads tails remaps).map (·.1) = loads := by
  have hbss := length_mergeBss Dict.empty loads
  have hrodata := length_mergeRodata [] loads
  apply List.map_fst_zip
  simp only [retagsOf, List.length_zip, List.length_map, List.length_cons]
  omega

/-- An instruction of an object stands in the linked program with its operand retagged. -/
theorem getElem?_link {loads : List Load} {tails : List TailSpec} {out : Linked}
    (h : link loads tails = .ok out) {i k : Nat} {load : Load} {ins : Instr}
    (hi : loads[i]? = some load) (hk : load.instrs[k]? = some ins) :
    ∃ (remaps : List (Dict Nat Nat)) (r : Retags),
      mergeMaps {} loads = .ok (out.maps, remaps) ∧ remaps[i]? = some r.mapRemap ∧
      (mergeBss Dict.empty loads).2[i]? = some r.bssRename ∧
      (mergeRodata [] loads).2[i]? = some r.rodataBase ∧
      out.instrs[loadStart loads i + k]? = some (retag r.mapRemap r.bssRename r.rodataBase ins) := by
  obtain ⟨remaps, hlen, hmaps, hparts⟩ := link_ok h
  have hremaps := length_mergeMaps hmaps
  obtain ⟨r, tail, hpart, hremap, hrename, hbase⟩ := getElem?_linkInput hlen hremaps hi
  have hat := getElem?_linkParts hparts hpart hk
  rw [map_fst_linkInput hlen hremaps] at hat
  exact ⟨remaps, r, hmaps, hremap, hrename, hbase, hat⟩

theorem length_pos_of_checkBody {load : Load} {last : Bool} (h : checkBody load last = .ok ()) :
    0 < load.instrs.length := by
  unfold checkBody at h
  split at h
  · cases h
  · rename_i ins hlast
    exact List.length_pos_of_mem (List.mem_of_getLast? hlast)

theorem start_progRegion {maps : List MapDef} {load : Load} {tail : Option TailSpec} {base : Nat}
    {region : ProgRegion} (h : progRegion maps load tail base = .ok region) :
    region.start = base := by
  unfold progRegion at h
  cases tail with
  | none =>
      cases h
      rfl
  | some tail =>
      obtain ⟨mapId, -, h⟩ := Lib.bind_eq_ok.mp h
      cases h
      rfl

/-- The regions lie inside the parts that they stand for. -/
theorem regions_linkParts {maps : List MapDef} {base : Nat} {parts : List LinkPart}
    {instrs : List Instr} {progs : List ProgRegion}
    (h : linkParts maps base parts = .ok (instrs, progs)) :
    ∀ r ∈ progs, base ≤ r.start ∧ r.start < base + instrs.length := by
  induction parts generalizing base instrs progs with
  | nil =>
      cases h
      simp
  | cons part parts ih =>
      obtain ⟨load, r, tail⟩ := part
      simp only [linkParts, Lib.bind_eq_ok] at h
      obtain ⟨⟨⟩, hbody, region, hregion, ⟨instrs', progs'⟩, hrest, hout⟩ := h
      cases hout
      have hpos := length_pos_of_checkBody hbody
      have hstart := start_progRegion hregion
      rw [List.forall_mem_cons, List.length_append, List.length_map]
      refine ⟨by omega, fun r hr => ?_⟩
      have := ih hrest r hr
      simp only [List.length_map] at this ⊢
      omega

/-- The main object's instructions come first, and the other regions start behind them. -/
theorem link_main {main : Load} {rest : List Load} {tails : List TailSpec} {out : Linked}
    (h : link (main :: rest) tails = .ok out) :
    0 < main.instrs.length ∧ main.instrs.length ≤ out.instrs.length ∧
      ∀ r ∈ out.progs,
        (r.start = 0 ∨ main.instrs.length ≤ r.start) ∧ r.start < out.instrs.length := by
  obtain ⟨remaps, hlen, hmaps, hparts⟩ := link_ok h
  obtain ⟨r, tail, hpart, -⟩ := getElem?_linkInput hlen (length_mergeMaps hmaps)
    (List.getElem?_cons_zero (a := main) (l := rest))
  cases hinput : linkInput (main :: rest) tails remaps with
  | nil => simp [hinput] at hpart
  | cons part parts =>
      rw [hinput] at hpart hparts
      cases hpart
      simp only [linkParts, Lib.bind_eq_ok] at hparts
      obtain ⟨⟨⟩, hbody, region, hregion, ⟨instrs', progs'⟩, hrest, hout⟩ := hparts
      obtain ⟨hinstrs, hprogs⟩ := Prod.mk.inj (Except.ok.inj hout)
      have hstart := start_progRegion hregion
      have hpos := length_pos_of_checkBody hbody
      rw [← hinstrs, ← hprogs, List.forall_mem_cons, List.length_append, List.length_map]
      refine ⟨hpos, by omega, ⟨.inl hstart, by omega⟩, fun r hr => ?_⟩
      have := regions_linkParts hrest r hr
      simp only [List.length_map] at this ⊢
      exact ⟨.inr (by omega), by omega⟩

end Hornet
