import Hornet.Load.Link

/-!
Map references. A map has three numbers on its way into a linked program: the
position of its entry in the `.maps` section, its position among the parsed maps,
and its position in the merged table. A relocation stores the second and the
linker translates the first, so an operand is right when the two agree.
-/

namespace Hornet

open Lib (Dict)

/-! ## Parsed maps -/

/-- The maps of the object are declared in BTF: their section holds zeros. -/
def Elf.BtfMaps (elf : Elf) : Prop := elf.mapsData.all (· = 0)

theorem parseMember_id {types : List BtfType} {info info' : MapDef} {m : BtfMember}
    (h : parseMember types info m = .ok info') : info'.id = info.id ∧ info'.name = info.name := by
  have hset : ∀ n field, (info.setField n field).id = info.id ∧
      (info.setField n field).name = info.name := fun n field => by cases field <;> exact ⟨rfl, rfl⟩
  simp only [parseMember, Lib.bind_eq_ok] at h
  obtain ⟨mtype, -, h⟩ := h
  split at h
  · cases h
    exact ⟨rfl, rfl⟩
  · split at h
    · simp only [Lib.bind_eq_ok] at h
      obtain ⟨pointed, -, h⟩ := h
      split at h
      · cases h
        exact hset _ _
      · cases h
        exact ⟨rfl, rfl⟩
    · split at h
      · simp only [Lib.bind_eq_ok] at h
        obtain ⟨size, -, h⟩ := h
        cases h
        exact hset _ _
      · cases h
        exact ⟨rfl, rfl⟩

/-- A parsed map is named and has the position of its entry as its id. -/
theorem parseSecinfo_id {types : List BtfType} {mapId : Nat} {secInfo : BtfVarSecinfo}
    {info : MapDef} (h : parseSecinfo types mapId secInfo = .ok (some info)) :
    info.id = mapId ∧ info.name.isSome := by
  simp only [parseSecinfo, Lib.bind_eq_ok] at h
  obtain ⟨varType, -, h⟩ := h
  split at h
  · cases h
  · simp only [Lib.bind_eq_ok] at h
    obtain ⟨structType, -, h⟩ := h
    split at h
    · cases h
    · split at h
      · simp only [Lib.bind_eq_ok] at h
        obtain ⟨parsed, hparsed, h⟩ := h
        have hmembers := Lib.foldlM_ok
          (fun _ (m : MapDef) => m.id = mapId ∧ m.name = some varType.name) ⟨rfl, rfl⟩
          (fun done m s s' hs _ hstep => by
            obtain ⟨hid, hname⟩ := parseMember_id hstep
            exact ⟨hid.trans hs.1, hname.trans hs.2⟩) hparsed
        cases h
        unfold progArraySizes
        split <;> simp [hmembers]
      · cases h

/-- The ids of the parsed maps rise with their positions. -/
theorem parseSecinfos_ids {types : List BtfType} {mapId : Nat} {entries : List BtfVarSecinfo}
    {maps : List MapDef} (h : parseSecinfos types mapId entries = .ok maps) :
    (maps.map (·.id)).Pairwise (· < ·) ∧ ∀ m ∈ maps, mapId ≤ m.id ∧ m.name.isSome := by
  induction entries generalizing mapId maps with
  | nil =>
      cases h
      simp
  | cons secInfo entries ih =>
      simp only [parseSecinfos, Lib.bind_eq_ok] at h
      obtain ⟨info, hinfo, tail, htail, h⟩ := h
      cases h
      obtain ⟨hpair, htail⟩ := ih htail
      cases info with
      | none => exact ⟨hpair, fun m hm => ⟨by have := (htail m hm).1; omega, (htail m hm).2⟩⟩
      | some info =>
          obtain ⟨hid, hname⟩ := parseSecinfo_id hinfo
          refine ⟨?_, ?_⟩
          · simp only [Option.toList_some, List.singleton_append, List.map_cons,
              List.pairwise_cons]
            refine ⟨fun n hn => ?_, hpair⟩
            obtain ⟨m, hm, rfl⟩ := List.mem_map.mp hn
            have := (htail m hm).1
            omega
          · simp only [Option.toList_some, List.singleton_append, List.forall_mem_cons]
            refine ⟨⟨hid.ge, hname⟩, fun m hm => ⟨?_, (htail m hm).2⟩⟩
            have := (htail m hm).1
            omega

theorem parseMaps_ids {elf : Elf} {symtab : List ElfSymbol} {maps : List MapDef}
    (hbtf : elf.BtfMaps) (h : parseMaps elf symtab = .ok maps) :
    (maps.map (·.id)).Pairwise (· < ·) ∧ ∀ m ∈ maps, m.name.isSome := by
  unfold parseMaps at h
  split at h
  · cases h
    simp
  · rw [if_pos (show elf.mapsData.all (· = 0) = true from hbtf)] at h
    split at h
    · unfold parseMapsBtf at h
      split at h
      · cases h
        simp
      · split at h
        · obtain ⟨hpair, hmem⟩ := parseSecinfos_ids h
          exact ⟨hpair, fun m hm => (hmem m hm).2⟩
        · cases h
    · cases h

theorem decodeBinary_maps {path mainFunc : String} {elf : Elf} {load : Load}
    (hbtf : elf.BtfMaps) (h : decodeBinary path mainFunc elf = .ok load) :
    (load.maps.map (·.id)).Pairwise (· < ·) ∧ ∀ m ∈ load.maps, m.name.isSome := by
  unfold decodeBinary at h
  split at h
  · cases h
  · simp only [Lib.bind_eq_ok] at h
    obtain ⟨⟨decoded, mainText, entryIdx⟩, -, maps, hmaps, rodata, -, instrs, -, h⟩ := h
    cases h
    exact parseMaps_ids hbtf hmaps

/-- An id that rises with the position is at least the position. -/
theorem le_id_of_pairwise {maps : List MapDef} (h : (maps.map (·.id)).Pairwise (· < ·)) {q : Nat}
    {m : MapDef} (hq : maps[q]? = some m) : q ≤ m.id := by
  induction q generalizing m with
  | zero => exact Nat.zero_le _
  | succ q ih =>
      obtain ⟨hlt, rfl⟩ := List.getElem?_eq_some_iff.mp hq
      have hprev := ih (List.getElem?_eq_getElem (by omega))
      have hrise := (List.pairwise_iff_getElem.mp h) q (q + 1) (by simp; omega) (by simpa) (by omega)
      simp only [List.getElem_map] at hrise
      omega

/-! ## Relocated instructions -/

/-- The last relocation of the instruction at `k` is against a map's symbol. -/
def RefersTo (elf : Elf) (mainFunc : String) (k : Nat) (name : String) : Prop :=
  ∃ symtab sym text sec pre r post, elf.symtab = some symtab ∧
    symtab.find? (·.name = mainFunc) = some sym ∧
    sym.stShndx.bind (elf.sections[·]?) = some text ∧
    elf.getSectionByName (".rel" ++ text.name) = some sec ∧ sec.relocs = pre ++ r :: post ∧
    r.rOffset / 8 = k ∧
    (∃ symbol, relocTarget elf symtab text.data.length r = .ok (some (symbol, .map)) ∧
      symbol.name = name) ∧
    ∀ r' ∈ post, r'.rOffset / 8 = k → relocTarget elf symtab text.data.length r' = .ok none

section Relocations

variable {elf : Elf} {symtab : List ElfSymbol} {bss : Dict String GlobalSym} {size k : Nat}
  {maps : List MapDef} {instrs instrs' : List Instr} {r : ElfReloc}

/-- A relocation of another instruction, or one that is skipped. -/
theorem applyReloc_other (h : applyReloc elf symtab bss size maps instrs r = .ok instrs')
    (hr : r.rOffset / 8 = k → relocTarget elf symtab size r = .ok none) :
    instrs'[k]? = instrs[k]? := by
  simp only [applyReloc, Lib.bind_eq_ok] at h
  obtain ⟨target, htarget, h⟩ := h
  split at h
  · cases h
    rfl
  · simp only [Lib.bind_eq_ok] at h
    obtain ⟨o, -, h⟩ := h
    cases h
    rw [List.getElem?_modify]
    split
    · rename_i heq
      rw [hr heq] at htarget
      cases htarget
    · exact Option.map_id'

theorem applyRelocs_other {relocs : List ElfReloc}
    (h : relocs.foldlM (applyReloc elf symtab bss size maps) instrs = .ok instrs')
    (hr : ∀ r ∈ relocs, r.rOffset / 8 = k → relocTarget elf symtab size r = .ok none) :
    instrs'[k]? = instrs[k]? :=
  Lib.foldlM_ok (fun _ s => s[k]? = instrs[k]?) rfl
    (fun _ r _ _ hs hmem hstep => (applyReloc_other hstep (hr r hmem)).trans hs) h

/-- A relocation against a map's symbol stores the position of the map. -/
theorem applyReloc_map {symbol : ElfSymbol} {p : Nat} {ins : Instr}
    (h : applyReloc elf symtab bss size maps instrs r = .ok instrs')
    (htarget : relocTarget elf symtab size r = .ok (some (symbol, .map)))
    (hnamed : mapNamed maps symbol.name = some p) (hins : instrs'[r.rOffset / 8]? = some ins) :
    ins.reloc = some (.map p) := by
  simp only [applyReloc, Lib.bind_eq_ok, htarget] at h
  obtain ⟨target, heq, h⟩ := h
  cases heq
  simp only [Lib.bind_eq_ok, relocOf, mapTag, hnamed] at h
  obtain ⟨o, ho, h⟩ := h
  cases ho
  cases h
  rw [List.getElem?_modify] at hins
  simp only [if_true] at hins
  obtain ⟨old, -, rfl⟩ := Option.map_eq_some_iff.mp hins
  rfl

end Relocations

/-- An instruction that refers to a parsed map has its position as operand. -/
theorem reloc_of_refersTo {path mainFunc name : String} {elf : Elf} {load : Load} {k p : Nat}
    {ins : Instr} (h : decodeBinary path mainFunc elf = .ok load)
    (href : RefersTo elf mainFunc k name) (hnamed : mapNamed load.maps name = some p)
    (hins : load.instrs[k]? = some ins) : ins.reloc = some (.map p) := by
  obtain ⟨symtab, sym, text, sec, pre, r, post, hsymtab, hsym, htext, hsec, hrelocs, rfl,
    ⟨symbol, htarget, rfl⟩, hpost⟩ := href
  simp only [decodeBinary, hsymtab, Lib.bind_eq_ok] at h
  obtain ⟨⟨decoded, mainText, entryIdx⟩, hdecoded, maps, -, rodata, -, instrs, hinstrs, h⟩ := h
  cases h
  simp only [parseInstrs, hsym, htext] at hdecoded
  split at hdecoded
  · cases hdecoded
  · simp only [Lib.bind_eq_ok] at hdecoded
    obtain ⟨decoded', -, hdecoded⟩ := hdecoded
    cases hdecoded
    simp only [applyRelocations, hsec, hrelocs, List.foldlM_append, List.foldlM_cons,
      Lib.bind_eq_ok] at hinstrs
    obtain ⟨before, -, at', hat, hafter⟩ := hinstrs
    rw [applyRelocs_other hafter hpost] at hins
    exact applyReloc_map hat htarget hnamed hins

/-! ## Merged maps -/

/-- A map together with what it is known by. -/
abbrev KeyedMap := MapKey × MapDef

/-- Takes up a map unless one of its key is there. -/
def keepFirst (seen : List KeyedMap) (x : KeyedMap) : List KeyedMap :=
  if x.1 ∈ seen.map (·.1) then seen else seen ++ [x]

def keyedMaps (load : Load) : List KeyedMap :=
  load.maps.map fun m => (mapKey m load.path, m)

/-- The distinct maps of all objects, in the order in which they are first seen. -/
def distinctMaps (loads : List Load) : List KeyedMap :=
  (loads.flatMap keyedMaps).foldl keepFirst []

/-- The merged table and its index hold the distinct maps seen so far. -/
structure Mirrors (m : MergedMaps) (seen : List KeyedMap) : Prop where
  nodup : (seen.map (·.1)).Nodup
  merged : ∀ j, m.merged[j]? = (seen[j]?).map fun x : KeyedMap => { x.2 with id := j }
  index : ∀ k j, m.index.get? k = some j ↔ (seen.map (·.1))[j]? = some k

/-- The map `info` is the `j`-th distinct map, and `remap` says so. -/
def Placed (seen : List KeyedMap) (path : String) (remap : Dict Nat Nat) (info : MapDef) : Prop :=
  ∃ j x, seen[j]? = some x ∧ x.1 = mapKey info path ∧ x.2.geometry = info.geometry ∧
    remap.get? info.id = some j

theorem keepFirst_grows (seen : List KeyedMap) (x : KeyedMap) : seen <+: keepFirst seen x := by
  unfold keepFirst
  split
  · exact List.prefix_rfl
  · exact List.prefix_append _ _

theorem foldl_keepFirst_grows (seen xs : List KeyedMap) : seen <+: xs.foldl keepFirst seen := by
  induction xs generalizing seen with
  | nil => exact List.prefix_rfl
  | cons x xs ih => exact (keepFirst_grows seen x).trans (ih _)

theorem mem_foldl_keepFirst {seen xs : List KeyedMap} {x : KeyedMap}
    (h : x ∈ xs.foldl keepFirst seen) : x ∈ seen ∨ x ∈ xs := by
  induction xs generalizing seen with
  | nil => exact .inl h
  | cons y xs ih =>
      rcases ih h with hseen | hxs
      · unfold keepFirst at hseen
        split at hseen
        · exact .inl hseen
        · rcases List.mem_append.mp hseen with hold | hnew
          · exact .inl hold
          · exact .inr (by simp [List.mem_singleton.mp hnew])
      · exact .inr (List.mem_cons_of_mem _ hxs)

theorem Placed.mono {seen seen' : List KeyedMap} {path : String} {remap : Dict Nat Nat}
    {info : MapDef} (h : Placed seen path remap info) (hgrows : seen <+: seen') :
    Placed seen' path remap info := by
  obtain ⟨j, x, hx, hrest⟩ := h
  obtain ⟨more, rfl⟩ := hgrows
  have hlt : j < seen.length := (List.getElem?_eq_some_iff.mp hx).1
  exact ⟨j, x, by rw [List.getElem?_append_left hlt, hx], hrest⟩

theorem Mirrors.length {m : MergedMaps} {seen : List KeyedMap} (h : Mirrors m seen) :
    m.merged.length = seen.length := by
  have hnone : ∀ n, m.merged[n]? = none ↔ seen[n]? = none := fun n => by
    rw [h.merged, Option.map_eq_none_iff]
  have h₁ := (hnone m.merged.length).mp (by simp)
  have h₂ := (hnone seen.length).mpr (by simp)
  rw [List.getElem?_eq_none_iff] at h₁ h₂
  omega

/-- A map that is new stands at the end. -/
theorem Mirrors.add {m : MergedMaps} {seen : List KeyedMap} (hm : Mirrors m seen)
    {key : MapKey} (hkey : key ∉ seen.map (·.1)) (info : MapDef) (remap : Dict Nat Nat) :
    Mirrors
      { merged := m.merged ++ [{ info with id := seen.length }]
        index := m.index.set key seen.length
        remap := remap } (seen ++ [(key, info)]) := by
  have hlen := hm.length
  refine ⟨?_, fun j => ?_, fun k j => ?_⟩
  · rw [List.map_append, List.nodup_append]
    refine ⟨hm.nodup, by simp, fun a ha b hb heq => ?_⟩
    obtain rfl := List.mem_singleton.mp hb
    exact hkey (by simpa [heq] using ha)
  · rcases Nat.lt_trichotomy j seen.length with hj | rfl | hj
    · rw [List.getElem?_append_left hj, List.getElem?_append_left (hlen ▸ hj), hm.merged]
    · simp [← hlen]
    · rw [List.getElem?_eq_none (by simp [hlen]; omega), List.getElem?_eq_none (by simp; omega)]
      rfl
  · rw [Dict.get?_set, List.map_append]
    rcases Nat.lt_trichotomy j seen.length with hj | rfl | hj
    · rw [List.getElem?_append_left (by simpa using hj), ← hm.index]
      split
      · rename_i hk
        constructor
        · intro h
          cases h
          omega
        · intro h
          exact absurd (List.mem_of_getElem? ((hm.index k j).mp h)) (hk ▸ hkey)
      · exact Iff.rfl
    · have hlast : (seen.map (·.1) ++ [(key, info)].map (·.1))[seen.length]? = some key := by simp
      rw [hlast]
      split
      · rename_i hk
        simp [hk]
      · rename_i hk
        rw [hm.index, List.getElem?_eq_none (by simp), Option.some_inj]
        exact ⟨nofun, fun h => absurd h.symm hk⟩
    · rw [List.getElem?_eq_none (by simp; omega)]
      refine ⟨fun h => ?_, nofun⟩
      split at h
      · cases h
        omega
      · rw [hm.index, List.getElem?_eq_none (by simp; omega)] at h
        cases h

/-- What merging one map does. -/
theorem mergeMap_spec {path : String} {m m' : MergedMaps} {seen : List KeyedMap} {info : MapDef}
    (hm : Mirrors m seen) (h : mergeMap path m info = .ok m') :
    Mirrors m' (keepFirst seen (mapKey info path, info)) ∧
      Placed (keepFirst seen (mapKey info path, info)) path m'.remap info ∧
      ∀ n, n ≠ info.id → m'.remap.get? n = m.remap.get? n := by
  unfold mergeMap at h
  dsimp only at h
  split at h
  · rename_i hnew
    have hkey : mapKey info path ∉ seen.map (·.1) := by
      intro hmem
      obtain ⟨j, hj⟩ := List.mem_iff_getElem?.mp hmem
      rw [(hm.index _ j).mpr hj] at hnew
      cases hnew
    cases h
    rw [keepFirst, if_neg hkey, hm.length]
    refine ⟨hm.add hkey info _, ?_, fun n hn => Dict.get?_set_of_ne _ _ hn⟩
    exact ⟨seen.length, (mapKey info path, info), by simp, rfl, rfl, Dict.get?_set_self _ _ _⟩
  · rename_i hit hhit
    split at h
    · cases h
    · rename_i hgeometry
      have hat := (hm.index _ _).mp hhit
      cases h
      rw [keepFirst, if_pos (List.mem_of_getElem? hat)]
      rw [List.getElem?_map, Option.map_eq_some_iff] at hat
      obtain ⟨x, hx, hkey⟩ := hat
      refine ⟨⟨hm.nodup, hm.merged, hm.index⟩, ⟨hit, x, hx, hkey, ?_, Dict.get?_set_self _ _ _⟩,
        fun n hn => Dict.get?_set_of_ne _ _ hn⟩
      rw [not_not, hm.merged, hx] at hgeometry
      simpa [MapDef.geometry] using hgeometry

/-- What merging the maps of one object does. -/
theorem mergeMapsOf_spec {path : String} {m m' : MergedMaps} {seen : List KeyedMap}
    {maps : List MapDef} (hm : Mirrors m seen) (hremap : m.remap = Dict.empty)
    (hids : (maps.map (·.id)).Pairwise (· < ·)) (h : maps.foldlM (mergeMap path) m = .ok m') :
    Mirrors m' ((maps.map fun info => (mapKey info path, info)).foldl keepFirst seen) ∧
      (∀ info ∈ maps,
        Placed ((maps.map fun info => (mapKey info path, info)).foldl keepFirst seen) path
          m'.remap info) ∧
      ∀ n, n ∉ maps.map (·.id) → m'.remap.get? n = none := by
  have hnodup : (maps.map (·.id)).Nodup := hids.imp Nat.ne_of_lt
  suffices ∀ done rest m, done ++ rest = maps →
      Mirrors m ((done.map fun info => (mapKey info path, info)).foldl keepFirst seen) →
      (∀ info ∈ done,
        Placed ((done.map fun info => (mapKey info path, info)).foldl keepFirst seen) path
          m.remap info) →
      (∀ n, n ∉ done.map (·.id) → m.remap.get? n = none) →
      rest.foldlM (mergeMap path) m = .ok m' → _ from
    this [] maps m rfl hm (by simp) (by simp [hremap]) h
  intro done rest
  induction rest generalizing done with
  | nil =>
      intro m hdone hmirrors hplaced hother hrun
      cases hrun
      rw [List.append_nil] at hdone
      subst hdone
      exact ⟨hmirrors, hplaced, hother⟩
  | cons info rest ih =>
      intro m hdone hmirrors hplaced hother hrun
      rw [List.foldlM_cons, Lib.bind_eq_ok] at hrun
      obtain ⟨m₁, hstep, hrest⟩ := hrun
      obtain ⟨hmirrors₁, hplaced₁, hother₁⟩ := mergeMap_spec hmirrors hstep
      have hnew : ∀ other ∈ done, other.id ≠ info.id := by
        rw [← hdone, List.map_append, List.nodup_append] at hnodup
        exact fun other hmem => hnodup.2.2 _ (List.mem_map_of_mem hmem) _ (by simp)
      apply ih (done ++ [info]) m₁ (by simpa using hdone)
      · simpa using hmirrors₁
      · intro other hmem
        rw [List.map_append, List.foldl_append]
        rcases List.mem_append.mp hmem with hold | hlast
        · obtain ⟨j, x, hx, hkey, hgeometry, hget⟩ := (hplaced other hold).mono
            (keepFirst_grows _ (mapKey info path, info))
          refine ⟨j, x, hx, hkey, hgeometry, ?_⟩
          rw [hother₁ _ (hnew other hold), hget]
        · obtain rfl := List.mem_singleton.mp hlast
          exact hplaced₁
      · intro n hn
        rw [List.map_append, List.mem_append, not_or] at hn
        rw [hother₁ n (by simpa using hn.2), hother n hn.1]
      · exact hrest

/-- What merging the maps of all objects does. -/
theorem mergeMaps_spec {m : MergedMaps} {seen : List KeyedMap} {loads : List Load}
    {maps : List MapDef} {remaps : List (Dict Nat Nat)} (hm : Mirrors m seen)
    (hids : ∀ load ∈ loads, (load.maps.map (·.id)).Pairwise (· < ·))
    (h : mergeMaps m loads = .ok (maps, remaps)) :
    (∀ j, maps[j]? = (((loads.flatMap keyedMaps).foldl keepFirst seen)[j]?).map
        fun x : KeyedMap => { x.2 with id := j }) ∧
      ∀ (i : Nat) (load : Load) (remap : Dict Nat Nat), loads[i]? = some load →
        remaps[i]? = some remap →
        (∀ info ∈ load.maps,
          Placed ((loads.flatMap keyedMaps).foldl keepFirst seen) load.path remap info) ∧
        ∀ n, n ∉ load.maps.map (·.id) → remap.get? n = none := by
  induction loads generalizing m seen maps remaps with
  | nil =>
      cases h
      exact ⟨hm.merged, fun i load remap hi => by simp at hi⟩
  | cons load loads ih =>
      simp only [mergeMaps, Lib.bind_eq_ok] at h
      obtain ⟨m₁, hobject, ⟨maps', remaps'⟩, hrest, hout⟩ := h
      cases hout
      have hstart : Mirrors { m with remap := Dict.empty } seen := ⟨hm.nodup, hm.merged, hm.index⟩
      obtain ⟨hmirrors, hplaced, hother⟩ :=
        mergeMapsOf_spec hstart rfl (hids load (by simp)) hobject
      obtain ⟨hmaps, hobjects⟩ := ih hmirrors (fun l hl => hids l (by simp [hl])) hrest
      rw [List.flatMap_cons, List.foldl_append]
      refine ⟨hmaps, fun i load' remap hi hremap => ?_⟩
      cases i with
      | zero =>
          cases hi
          cases hremap
          exact ⟨fun info hinfo => (hplaced info hinfo).mono (foldl_keepFirst_grows _ _), hother⟩
      | succ i => exact hobjects i load' remap hi hremap

theorem mirrors_nil : Mirrors {} [] :=
  ⟨List.nodup_nil, fun _ => rfl, fun _ _ => by simp⟩

/-- Named maps that are known by the same key have the same name. -/
theorem name_of_mapKey {info info' : MapDef} {path path' : String} (h : info.name.isSome)
    (h' : info'.name.isSome) (hkey : mapKey info path = mapKey info' path') :
    info.name = info'.name := by
  obtain ⟨name, hname⟩ := Option.isSome_iff_exists.mp h
  obtain ⟨name', hname'⟩ := Option.isSome_iff_exists.mp h'
  unfold mapKey at hkey
  rw [hname, hname'] at hkey ⊢
  dsimp only at hkey
  split at hkey <;> split at hkey
  · rename_i h₁ h₂
    rw [h₁, h₂]
  · cases hkey
  · cases hkey
  · cases hkey
    rfl

/-! ## References -/

/-- The instruction at `line` refers to a map that is declared as `m` is. -/
def RefersToMap (out : Linked) (line : Nat) (m : MapDef) : Prop :=
  ∃ ins tag m', out.instrs[line]? = some ins ∧ ins.reloc = some (.map tag) ∧
    out.maps[tag]? = some m' ∧ m'.name = m.name ∧ m'.geometry = m.geometry

/-- The position `p` of the map `m` among the maps of its object stands for it in the
merge: it is the position of its entry too, or it is that of no parsed entry and
happens to be the position of its declaration among the distinct maps. -/
def PositionKept (loads : List Load) (load : Load) (p : Nat) (m : MapDef) : Prop :=
  m.id = p ∨
    (∀ m' ∈ load.maps, m'.id ≠ p) ∧
      ∃ x, (distinctMaps loads)[p]? = some x ∧ x.2.name = m.name ∧ x.2.geometry = m.geometry

section References

variable {loads : List Load} {out : Linked} {load : Load} {line p : Nat} {m : MapDef}
  {name : String}

theorem mapNamed_first (hnamed : mapNamed load.maps name = some p) (hm : load.maps[p]? = some m) :
    m.name = some name ∧
      ∀ q m', load.maps[q]? = some m' → m'.name = some name → p ≤ q := by
  obtain ⟨hp, hfound, hbefore⟩ := List.findIdx?_eq_some_iff_getElem.mp hnamed
  obtain ⟨-, rfl⟩ := List.getElem?_eq_some_iff.mp hm
  refine ⟨of_decide_eq_true hfound, fun q m' hq hname => ?_⟩
  by_contra hlt
  obtain ⟨_, rfl⟩ := List.getElem?_eq_some_iff.mp hq
  exact hbefore q (by omega) (decide_eq_true hname)

/-- What a distinct map is known by comes from one of the objects. -/
theorem key_of_mem_distinctMaps {x : KeyedMap} (h : x ∈ distinctMaps loads) :
    ∃ l ∈ loads, ∃ m ∈ l.maps, x = (mapKey m l.path, m) := by
  rcases mem_foldl_keepFirst h with hnil | hmem
  · cases hnil
  · obtain ⟨l, hl, hx⟩ := List.mem_flatMap.mp hmem
    obtain ⟨m, hm, rfl⟩ := List.mem_map.mp hx
    exact ⟨l, hl, m, hm, rfl⟩

/-- A map that is known by the key of a named one has its name. -/
theorem name_of_placed {j : Nat} {x : KeyedMap} {m' : MapDef}
    (hnames : ∀ l ∈ loads, ∀ m ∈ l.maps, m.name.isSome) (hload : load ∈ loads)
    (hm' : m' ∈ load.maps) (hx : (distinctMaps loads)[j]? = some x)
    (hkey : x.1 = mapKey m' load.path) : x.2.name = m'.name := by
  obtain ⟨l, hl, m, hm, rfl⟩ := key_of_mem_distinctMaps (List.mem_of_getElem? hx)
  exact name_of_mapKey (hnames l hl m hm) (hnames load hload m' hm') hkey

theorem refersToMap_iff {ins : Instr} {tag : Nat} (hat : out.instrs[line]? = some ins)
    (hreloc : ins.reloc = some (.map tag))
    (hmerged : ∀ j, out.maps[j]? = ((distinctMaps loads)[j]?).map
      fun x : KeyedMap => { x.2 with id := j }) :
    RefersToMap out line m ↔
      ∃ x, (distinctMaps loads)[tag]? = some x ∧ x.2.name = m.name ∧
        x.2.geometry = m.geometry := by
  constructor
  · rintro ⟨ins', tag', m', hat', hreloc', hm', hname, hgeometry⟩
    obtain rfl := Option.some_inj.mp (hat.symm.trans hat')
    obtain rfl : tag = tag' := by simpa using hreloc.symm.trans hreloc'
    rw [hmerged, Option.map_eq_some_iff] at hm'
    obtain ⟨x, hx, rfl⟩ := hm'
    exact ⟨x, hx, hname, hgeometry⟩
  · rintro ⟨x, hx, hname, hgeometry⟩
    exact ⟨ins, tag, { x.2 with id := tag }, hat, hreloc, by rw [hmerged, hx]; rfl, hname,
      hgeometry⟩

/-- The object's own reference survives exactly when its position is kept. -/
theorem linked_map_reference_iff {objs : List ObjectFile} {tails : List TailSpec}
    (hbtf : ∀ o ∈ objs, o.elf.BtfMaps) (hdecode : decodeAll objs = .ok loads)
    (hlink : link loads tails = .ok out) {i k : Nat} {o : ObjectFile} {ins : Instr}
    (ho : objs[i]? = some o) (hload : loads[i]? = some load) (hins : load.instrs[k]? = some ins)
    (href : RefersTo o.elf o.entry k name) (hnamed : mapNamed load.maps name = some p)
    (hm : load.maps[p]? = some m) :
    RefersToMap out (loadStart loads i + k) m ↔ PositionKept loads load p m := by
  have hparsed : ∀ l ∈ loads,
      (l.maps.map (·.id)).Pairwise (· < ·) ∧ ∀ m ∈ l.maps, m.name.isSome := by
    intro l hl
    obtain ⟨j, hj⟩ := List.mem_iff_getElem?.mp hl
    obtain ⟨o', ho', hdecoded⟩ := getElem?_decodeAll hdecode hj
    exact decodeBinary_maps (hbtf o' (List.mem_of_getElem? ho')) hdecoded
  have hids := (hparsed load (List.mem_of_getElem? hload)).1
  obtain ⟨remaps, r, hmaps, hremap, -, -, hat⟩ := getElem?_link hlink hload hins
  obtain ⟨o', ho', hdecoded⟩ := getElem?_decodeAll hdecode hload
  obtain rfl : o' = o := Option.some_inj.mp (ho'.symm.trans ho)
  have hreloc := reloc_of_refersTo hdecoded href hnamed hins
  obtain ⟨hmerged, hobjects⟩ := mergeMaps_spec mirrors_nil (fun l hl => (hparsed l hl).1) hmaps
  obtain ⟨hplaced, hother⟩ := hobjects i load r.mapRemap hload hremap
  have htag : (retag r.mapRemap r.bssRename r.rodataBase ins).reloc =
      some (.map ((r.mapRemap.get? p).getD p)) := by simp [retag, hreloc, retagReloc]
  rw [refersToMap_iff hat htag hmerged]
  by_cases hentry : ∃ m' ∈ load.maps, m'.id = p
  · obtain ⟨m', hmem, rfl⟩ := hentry
    obtain ⟨j, x, hx, hkey, hgeometry, hget⟩ := hplaced m' hmem
    have hname := name_of_placed (fun l hl => (hparsed l hl).2) (List.mem_of_getElem? hload) hmem
      hx hkey
    rw [hget, Option.getD_some]
    obtain ⟨hmname, hfirst⟩ := mapNamed_first hnamed hm
    obtain ⟨q, hq⟩ := List.mem_iff_getElem?.mp hmem
    have hqp := le_id_of_pairwise hids hq
    constructor
    · rintro ⟨y, hy, hyname, -⟩
      obtain rfl := Option.some_inj.mp (hx.symm.trans hy)
      have hpq := hfirst q m' hq (hname.symm.trans (hyname.trans hmname))
      obtain rfl : q = m'.id := Nat.le_antisymm hqp hpq
      obtain rfl := Option.some_inj.mp (hm.symm.trans hq)
      exact .inl rfl
    · rintro (hid | ⟨hnone, -⟩)
      · obtain rfl : m = m' := by
          have hnodup : (load.maps.map (·.id)).Nodup := hids.imp Nat.ne_of_lt
          exact List.inj_on_of_nodup_map hnodup (List.mem_of_getElem? hm) hmem hid
        exact ⟨x, hx, hname, hgeometry⟩
      · exact absurd rfl (hnone m' hmem)
  · have hnone : ∀ m' ∈ load.maps, m'.id ≠ p := fun m' hmem heq => hentry ⟨m', hmem, heq⟩
    have hget : r.mapRemap.get? p = none := hother p fun hmem => by
      obtain ⟨m', hm', heq⟩ := List.mem_map.mp hmem
      exact hnone m' hm' heq
    rw [hget, Option.getD_none]
    constructor
    · intro h
      exact .inr ⟨hnone, h⟩
    · rintro (hid | ⟨-, h⟩)
      · exact absurd hid (hnone m (List.mem_of_getElem? hm))
      · exact h

end References

/-- The types of maps `t`, `a` and `b`, where `t` is declared through a typedef when
`typedef` holds and the struct of `a` and `b` describes an array of four-byte values. -/
def threeMapTypes (typedef : Bool) : List BtfType :=
  let ty (name : String) (kind sizeOrType : Nat) (extra : BtfExtra) : BtfType :=
    { name := name, kind := kind, vlen := 0, kindFlag := 0, sizeOrType := sizeOrType, extra := extra }
  [ty "t" 14 (if typedef then 4 else 5) (.linkage 1), ty "a" 14 5 (.linkage 1),
    ty "b" 14 5 (.linkage 1), ty "map_t" 8 5 .none,
    ty "" 4 32 (.members [⟨"type", 6, 0⟩, ⟨"max_entries", 7, 64⟩, ⟨"key_size", 8, 128⟩,
      ⟨"value_size", 8, 192⟩]),
    ty "" 2 9 .none, ty "" 2 10 .none, ty "" 2 11 .none,
    ty "" 3 0 (.array 12 12 2), ty "" 3 0 (.array 12 12 1), ty "" 3 0 (.array 12 12 4),
    ty "int" 1 4 (.int 0), ty ".maps" 15 96 (.secinfos [⟨1, 0, 32⟩, ⟨2, 32, 32⟩, ⟨3, 64, 32⟩])]

/-- An object that loads the address of its map `b`. -/
def threeMapFile (typedef : Bool) : ObjectFile :=
  { path := "three.o"
    entry := "xdp_prog"
    elf :=
      { sections := [
          { name := "" },
          { name := "xdp"
            data := [0x18, 0x01, 0, 0, 0, 0, 0, 0, 0, 0, 0, 0, 0, 0, 0, 0,
              0xb7, 0, 0, 0, 2, 0, 0, 0, 0x95, 0, 0, 0, 0, 0, 0, 0] },
          { name := ".maps", data := List.replicate 96 0 },
          { name := ".relxdp", relocs := [{ rOffset := 0, rInfoSym := 2 }] }]
        symtab := some [
          { name := "", stValue := 0, stSize := 0, stShndx := none, stType := .other },
          { name := "xdp_prog", stValue := 0, stSize := 32, stShndx := some 1, stType := .other },
          { name := "b", stValue := 64, stSize := 32, stShndx := some 2, stType := .STT_OBJECT }]
        btf := some (threeMapTypes typedef) } }

theorem refersTo_threeMapFile (typedef : Bool) :
    RefersTo (threeMapFile typedef).elf (threeMapFile typedef).entry 0 "b" := by
  refine ⟨_, _, _, _, [], _, [], rfl, rfl, rfl, rfl, rfl, rfl, ⟨_, rfl, rfl⟩, by simp⟩

/-- With no entry skipped the reference survives. -/
theorem linked_map_reference_unskipped :
    ∃ loads out load m, decodeAll [threeMapFile false] = .ok loads ∧ link loads [] = .ok out ∧
      loads[0]? = some load ∧ load.maps[2]? = some m ∧ m.name = some "b" ∧
      RefersToMap out (loadStart loads 0 + 0) m := by
  have hbtf : ∀ o ∈ [threeMapFile false], o.elf.BtfMaps := by
    intro o ho
    obtain rfl := List.mem_singleton.mp ho
    rfl
  obtain ⟨loads, out, load, m, ins, hdecode, hlink, hload, hins, hnamed, hm, hname, hid⟩ :
      ∃ loads out load m ins, decodeAll [threeMapFile false] = .ok loads ∧
        link loads [] = .ok out ∧ loads[0]? = some load ∧ load.instrs[0]? = some ins ∧
        mapNamed load.maps "b" = some 2 ∧ load.maps[2]? = some m ∧ m.name = some "b" ∧ m.id = 2 :=
    ⟨_, _, _, _, _, rfl, rfl, rfl, rfl, rfl, rfl, rfl, rfl⟩
  refine ⟨loads, out, load, m, hdecode, hlink, hload, hm, hname, ?_⟩
  exact (linked_map_reference_iff hbtf hdecode hlink rfl hload hins
    (refersTo_threeMapFile false) hnamed hm).mpr (.inl hid)

/-- A skipped entry moves the reference to `b` to the map before it. -/
theorem linked_map_reference_skipped :
    ∃ loads out load m, decodeAll [threeMapFile true] = .ok loads ∧ link loads [] = .ok out ∧
      (threeMapFile true).elf.BtfMaps ∧ loads[0]? = some load ∧
      RefersTo (threeMapFile true).elf (threeMapFile true).entry 0 "b" ∧
      mapNamed load.maps "b" = some 1 ∧ load.maps[1]? = some m ∧
      ¬ RefersToMap out (loadStart loads 0 + 0) m := by
  refine ⟨_, _, _, _, rfl, rfl, rfl, rfl, refersTo_threeMapFile true, rfl, rfl, ?_⟩
  rintro ⟨ins, tag, m', hins, hreloc, hm', hname, -⟩
  cases hins
  cases hreloc
  cases hm'
  simp [progArraySizes, MapDef.setField] at hname

end Hornet
