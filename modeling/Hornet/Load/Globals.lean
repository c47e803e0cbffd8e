import Hornet.Load.Link
import Mathlib.Data.List.Nodup
import Mathlib.Data.Set.Function

/-!
The keys of `.bss` symbols. Every symbol is given a key in the merged table when
its object is linked. The keys of two symbols differ when each of them was new to
the table at its turn, and the symbol at which this first fails shares its key
with an earlier one.
-/

namespace Hornet

open Lib (Dict)

/-- The key under which a symbol is accessed when its object's keys are `rename`. -/
def keyIn (rename : Dict String String) (name : String) : String :=
  (rename.get? name).getD name

/-- The key that the instructions of object `i` use for its symbol `name`. -/
def bssKey (loads : List Load) (i : Nat) (name : String) : String :=
  keyIn (((mergeBss Dict.empty loads).2[i]?).getD Dict.empty) name

/-- The `.bss` symbols of all objects, each with the index of its object. -/
def bssSymbols (loads : List Load) : List (Nat × String) :=
  loads.zipIdx.flatMap fun x => x.1.bss.keys.map (x.2, ·)

/-- A symbol finds no other of its name in the table, or one of another size and
nothing under its prefixed name. -/
def Separate (entry : String) (bss : Dict String GlobalSym) (x : String × GlobalSym) : Prop :=
  match bss.get? x.1 with
  | none => True
  | some «have» => «have».size ≠ x.2.size ∧ bss.get? (entry ++ "." ++ x.1) = none

/-- The symbols are separate, each from the table that it is merged into. -/
def SymbolsSeparate (entry : String) (g : MergedBss) : List (String × GlobalSym) → Prop
  | [] => True
  | x :: xs => Separate entry g.bss x ∧ SymbolsSeparate entry (mergeSymbol entry g x) xs

/-- The symbols of all objects are separate. -/
def ObjectsSeparate (bss : Dict String GlobalSym) : List Load → Prop
  | [] => True
  | load :: loads =>
      SymbolsSeparate load.entry { bss := bss } load.bss.entries ∧
        ObjectsSeparate (mergeObject bss load).bss loads

/-! ## The key of one symbol -/

/-- The key that a symbol is given when it is merged into the table. -/
def stepKey (entry : String) (bss : Dict String GlobalSym) (x : String × GlobalSym) : String :=
  match bss.get? x.1 with
  | none => x.1
  | some «have» => if «have».size = x.2.size then x.1 else entry ++ "." ++ x.1

variable {entry : String} {g : MergedBss} {x : String × GlobalSym} {xs : List (String × GlobalSym)}

/-- A symbol is new, shares the key of its name, or is renamed. -/
theorem mergeSymbol_cases (entry : String) (g : MergedBss) (x : String × GlobalSym) :
    (g.bss.get? x.1 = none ∧ stepKey entry g.bss x = x.1 ∧
        mergeSymbol entry g x = { g with bss := g.bss.set x.1 x.2 }) ∨
      (∃ s : GlobalSym, g.bss.get? x.1 = some s ∧ s.size = x.2.size ∧
        stepKey entry g.bss x = x.1 ∧ mergeSymbol entry g x = g) ∨
      (∃ s : GlobalSym, g.bss.get? x.1 = some s ∧ s.size ≠ x.2.size ∧
        stepKey entry g.bss x = entry ++ "." ++ x.1 ∧
        mergeSymbol entry g x =
          { bss := g.bss.set (entry ++ "." ++ x.1) x.2
            rename := g.rename.set x.1 (entry ++ "." ++ x.1) }) := by
  cases hget : g.bss.get? x.1 with
  | none => exact .inl ⟨rfl, by simp [stepKey, hget], by simp [mergeSymbol, hget]⟩
  | some s =>
      by_cases hsize : s.size = x.2.size
      · exact .inr (.inl ⟨s, rfl, hsize, by simp [stepKey, hget, hsize],
          by simp [mergeSymbol, hget, hsize]⟩)
      · exact .inr (.inr ⟨s, rfl, hsize, by simp [stepKey, hget, hsize],
          by simp [mergeSymbol, hget, hsize]⟩)

theorem mem_keys_of_get? {bss : Dict String GlobalSym} {k : String} {s : GlobalSym}
    (h : bss.get? k = some s) : k ∈ bss.keys :=
  Dict.get?_isSome.mp (by rw [h]; rfl)

theorem mem_keys_mergeSymbol {k : String} :
    k ∈ (mergeSymbol entry g x).bss.keys ↔ k ∈ g.bss.keys ∨ k = stepKey entry g.bss x := by
  rcases mergeSymbol_cases entry g x with
    ⟨-, hkey, hstep⟩ | ⟨s, hget, -, hkey, hstep⟩ | ⟨s, -, -, hkey, hstep⟩
  · rw [hstep, hkey]
    exact Dict.mem_keys_set
  · rw [hstep, hkey]
    exact ⟨.inl, fun h => h.elim id fun heq => heq ▸ mem_keys_of_get? hget⟩
  · rw [hstep, hkey]
    exact Dict.mem_keys_set

theorem separate_iff : Separate entry g.bss x ↔ stepKey entry g.bss x ∉ g.bss.keys := by
  unfold Separate
  rcases mergeSymbol_cases entry g x with
    ⟨hget, hkey, -⟩ | ⟨s, hget, hsize, hkey, -⟩ | ⟨s, hget, hsize, hkey, -⟩
  · simpa [hget, hkey] using Dict.get?_eq_none.mp hget
  · simp [hget, hkey, hsize, mem_keys_of_get? hget]
  · simp [hget, hkey, hsize, Dict.get?_eq_none]

theorem keyIn_mergeSymbol (hx : g.rename.get? x.1 = none) :
    keyIn (mergeSymbol entry g x).rename x.1 = stepKey entry g.bss x := by
  unfold keyIn
  rcases mergeSymbol_cases entry g x with
    ⟨-, hkey, hstep⟩ | ⟨s, -, -, hkey, hstep⟩ | ⟨s, -, -, hkey, hstep⟩
  · simp [hstep, hkey, hx]
  · simp [hstep, hkey, hx]
  · simp [hstep, hkey]

theorem rename_mergeSymbol_of_ne {name : String} (h : name ≠ x.1) :
    (mergeSymbol entry g x).rename.get? name = g.rename.get? name := by
  rcases mergeSymbol_cases entry g x with
    ⟨-, -, hstep⟩ | ⟨s, -, -, -, hstep⟩ | ⟨s, -, -, -, hstep⟩
  · rw [hstep]
  · rw [hstep]
  · rw [hstep]
    exact Dict.get?_set_of_ne _ _ h

/-! ## The keys of one object -/

/-- The keys that the symbols are given, one after the other. -/
def objectKeys (entry : String) (g : MergedBss) : List (String × GlobalSym) → List String
  | [] => []
  | x :: xs => stepKey entry g.bss x :: objectKeys entry (mergeSymbol entry g x) xs

theorem mem_keys_mergeSymbols {k : String} :
    k ∈ (xs.foldl (mergeSymbol entry) g).bss.keys ↔
      k ∈ g.bss.keys ∨ k ∈ objectKeys entry g xs := by
  induction xs generalizing g with
  | nil => simp [objectKeys]
  | cons x xs ih =>
      rw [List.foldl_cons, ih, mem_keys_mergeSymbol, objectKeys, List.mem_cons, or_assoc]

theorem symbolsSeparate_iff :
    SymbolsSeparate entry g xs ↔
      (objectKeys entry g xs).Nodup ∧ ∀ k ∈ objectKeys entry g xs, k ∉ g.bss.keys := by
  induction xs generalizing g with
  | nil => simp [SymbolsSeparate, objectKeys]
  | cons x xs ih =>
      rw [SymbolsSeparate, ih, separate_iff, objectKeys, List.nodup_cons, List.forall_mem_cons]
      have hnew : (∀ k ∈ objectKeys entry (mergeSymbol entry g x) xs,
            k ∉ (mergeSymbol entry g x).bss.keys) ↔
          stepKey entry g.bss x ∉ objectKeys entry (mergeSymbol entry g x) xs ∧
            ∀ k ∈ objectKeys entry (mergeSymbol entry g x) xs, k ∉ g.bss.keys := by
        constructor
        · intro h
          refine ⟨fun hmem => h _ hmem (mem_keys_mergeSymbol.mpr (.inr rfl)), fun k hk hmem => ?_⟩
          exact h k hk (mem_keys_mergeSymbol.mpr (.inl hmem))
        · intro ⟨hstep, h⟩ k hk hmem
          rcases mem_keys_mergeSymbol.mp hmem with hold | heq
          · exact h k hk hold
          · exact hstep (heq ▸ hk)
      rw [hnew]
      tauto

theorem rename_mergeSymbols_of_not_mem {name : String} (h : name ∉ xs.map (·.1)) :
    (xs.foldl (mergeSymbol entry) g).rename.get? name = g.rename.get? name := by
  induction xs generalizing g with
  | nil => rfl
  | cons x xs ih =>
      rw [List.map_cons, List.mem_cons, not_or] at h
      rw [List.foldl_cons, ih h.2, rename_mergeSymbol_of_ne h.1]

/-- After the whole object is merged, each symbol still has the key of its turn. -/
theorem keyIn_mergeSymbols (hnodup : (xs.map (·.1)).Nodup)
    (hnew : ∀ name ∈ xs.map (·.1), g.rename.get? name = none) :
    (xs.map (·.1)).map (keyIn (xs.foldl (mergeSymbol entry) g).rename) =
      objectKeys entry g xs := by
  induction xs generalizing g with
  | nil => rfl
  | cons x xs ih =>
      rw [List.map_cons, List.nodup_cons] at hnodup
      rw [List.map_cons, List.forall_mem_cons] at hnew
      rw [List.map_cons, List.map_cons, List.foldl_cons, objectKeys]
      congr 1
      · rw [← keyIn_mergeSymbol hnew.1]
        unfold keyIn
        rw [rename_mergeSymbols_of_not_mem hnodup.1]
      · apply ih hnodup.2
        intro name hname
        have hne : name ≠ x.1 := fun heq => hnodup.1 (heq ▸ hname)
        rw [rename_mergeSymbol_of_ne hne]
        exact hnew.2 name hname

/-! ## The keys of all objects -/

/-- The keys that the symbols of all objects are given, one after the other. -/
def linkKeys (bss : Dict String GlobalSym) : List Load → List String
  | [] => []
  | load :: loads =>
      objectKeys load.entry { bss := bss } load.bss.entries ++
        linkKeys (mergeObject bss load).bss loads

theorem objectsSeparate_iff {bss : Dict String GlobalSym} {loads : List Load} :
    ObjectsSeparate bss loads ↔
      (linkKeys bss loads).Nodup ∧ ∀ k ∈ linkKeys bss loads, k ∉ bss.keys := by
  induction loads generalizing bss with
  | nil => simp [ObjectsSeparate, linkKeys]
  | cons load loads ih =>
      rw [ObjectsSeparate, symbolsSeparate_iff, ih, linkKeys, List.nodup_append,
        List.forall_mem_append]
      have hold : ∀ k, k ∈ (mergeObject bss load).bss.keys ↔
          k ∈ bss.keys ∨ k ∈ objectKeys load.entry { bss := bss } load.bss.entries :=
        fun k => mem_keys_mergeSymbols
      constructor
      · rintro ⟨⟨hnodup, hnew⟩, hnodup', hnew'⟩
        refine ⟨⟨hnodup, hnodup', fun a ha b hb heq => ?_⟩, hnew, fun k hk hmem => ?_⟩
        · exact hnew' b hb ((hold b).mpr (.inr (heq ▸ ha)))
        · exact hnew' k hk ((hold k).mpr (.inl hmem))
      · rintro ⟨⟨hnodup, hnodup', hne⟩, hnew, hnew'⟩
        refine ⟨⟨hnodup, hnew⟩, hnodup', fun k hk hmem => ?_⟩
        rcases (hold k).mp hmem with hmem | hmem
        · exact hnew' k hk hmem
        · exact hne k hmem k hk rfl

theorem linkKeys_eq_flatMap (bss : Dict String GlobalSym) (loads : List Load) :
    linkKeys bss loads =
      (loads.zip (mergeBss bss loads).2).flatMap fun x => x.1.bss.keys.map (keyIn x.2) := by
  induction loads generalizing bss with
  | nil => rfl
  | cons load loads ih =>
      have hobject : load.bss.keys.map (keyIn (mergeObject bss load).rename) =
          objectKeys load.entry { bss := bss } load.bss.entries :=
        keyIn_mergeSymbols load.bss.nodup fun _ _ => rfl
      rw [linkKeys, ih, ← hobject]
      simp only [mergeBss, List.zip_cons_cons, List.flatMap_cons]

/-- The keys of the symbols, in the order of the objects. -/
theorem map_bssKey (loads : List Load) :
    (bssSymbols loads).map (fun x => bssKey loads x.1 x.2) = linkKeys Dict.empty loads := by
  rw [linkKeys_eq_flatMap, bssSymbols, List.map_flatMap]
  have hlen := length_mergeBss Dict.empty loads
  have hzip : loads.zip (mergeBss Dict.empty loads).2 =
      loads.zipIdx.map fun x => (x.1, ((mergeBss Dict.empty loads).2[x.2]?).getD Dict.empty) := by
    apply List.ext_getElem
    · simp [hlen]
    · intro i h₁ h₂
      have hi : i < (mergeBss Dict.empty loads).2.length := by
        rw [List.length_zip] at h₁
        omega
      simp [hi]
  rw [hzip, List.flatMap_map]
  simp only [List.map_map, Function.comp_def, bssKey]

theorem nodup_bssSymbols (loads : List Load) : (bssSymbols loads).Nodup := by
  rw [bssSymbols, List.nodup_flatMap]
  constructor
  · intro x _
    exact x.1.bss.nodup.map fun a b h => (Prod.mk.inj h).2
  · have hidx : (loads.zipIdx.map (·.2)).Nodup := by
      rw [List.zipIdx_map_snd]
      exact List.nodup_range'
    refine (List.pairwise_map.mp hidx).imp fun {a b} hne => ?_
    intro y hya hyb
    obtain ⟨s, -, rfl⟩ := List.mem_map.mp hya
    obtain ⟨t, -, ht⟩ := List.mem_map.mp hyb
    exact hne (Prod.mk.inj ht).1.symm

/-- The keys of two `.bss` symbols differ exactly when every symbol was new to the
table that it was merged into. -/
theorem bssKey_injOn_iff (loads : List Load) :
    Set.InjOn (fun x : Nat × String => bssKey loads x.1 x.2) {x | x ∈ bssSymbols loads} ↔
      ObjectsSeparate Dict.empty loads := by
  have hkeys := List.nodup_map_iff_inj_on (f := fun x : Nat × String => bssKey loads x.1 x.2)
    (nodup_bssSymbols loads)
  rw [map_bssKey] at hkeys
  have hempty : ∀ k ∈ linkKeys Dict.empty loads, k ∉ (Dict.empty : Dict String GlobalSym).keys :=
    fun _ _ => List.not_mem_nil
  rw [objectsSeparate_iff, and_iff_left hempty, hkeys]
  rfl

/-! ## Private globals -/

/-- The instructions of every object access each of its `.bss` symbols under a key
that no other symbol, of the same object or of another, is accessed under. -/
structure GlobalsPrivate (loads : List Load) (out : Linked) : Prop where
  retagged : ∀ i k load ins name offset, loads[i]? = some load → load.instrs[k]? = some ins →
    ins.reloc = some (.bss (some name) offset) →
    ∃ ins', out.instrs[loadStart loads i + k]? = some ins' ∧
      ins'.reloc = some (.bss (some (bssKey loads i name)) offset)
  injective :
    Set.InjOn (fun x : Nat × String => bssKey loads x.1 x.2) {x | x ∈ bssSymbols loads}

theorem reloc_link_bss {loads : List Load} {tails : List TailSpec} {out : Linked}
    (h : link loads tails = .ok out) {i k : Nat} {load : Load} {ins : Instr} {name : String}
    {offset : Int} (hi : loads[i]? = some load) (hk : load.instrs[k]? = some ins)
    (hreloc : ins.reloc = some (.bss (some name) offset)) :
    ∃ ins', out.instrs[loadStart loads i + k]? = some ins' ∧
      ins'.reloc = some (.bss (some (bssKey loads i name)) offset) := by
  obtain ⟨_, r, -, -, hrename, -, hat⟩ := getElem?_link h hi hk
  refine ⟨_, hat, ?_⟩
  simp [retag, hreloc, retagReloc, bssKey, hrename, keyIn]

/-- Globals stay private exactly when every symbol is separate from those linked before it. -/
theorem linked_globals_private_iff {loads : List Load} {tails : List TailSpec} {out : Linked}
    (h : link loads tails = .ok out) :
    GlobalsPrivate loads out ↔ ObjectsSeparate Dict.empty loads := by
  rw [← bssKey_injOn_iff]
  refine ⟨fun hprivate => hprivate.injective, fun hinj => ⟨?_, hinj⟩⟩
  intro i k load ins name offset hi hk hreloc
  exact reloc_link_bss h hi hk hreloc

/-- An object that counts in a global of the given size. -/
def counterLoad (entry : String) (size : Nat) (maps : List MapDef) : Load :=
  { instrs := [
      { Instr.nop with opcodeClass := .LD, opcodeSz := .DW, dstReg := 1, wideInstr := true
                       reloc := some (.bss (some "counter") 0) },
      .nop,
      { Instr.nop with opcodeClass := .ST, opcodeMode := .MEM, dstReg := 1, imm := 1 },
      { Instr.nop with opcodeClass := .ALU64, aluCode := .MOV, imm := 2 },
      { Instr.nop with opcodeClass := .JMP, jmpCode := .EXIT }]
    maps := maps
    rodata := []
    bss := Dict.ofList [("counter", ⟨size, 0⟩)]
    entry := entry
    entryIdx := 0
    path := entry ++ ".o"
    sectionName := "xdp" }

/-- A program with a program array, and one that is loaded into it. -/
def counterLoads (mainSize nextSize : Nat) : List Load :=
  [counterLoad "main" mainSize [{ id := 0, name := some "progs", type := 3, keySize := 4
                                  valueSize := 4, maxEntries := 1 }],
    counterLoad "next" nextSize []]

def counterTails : List TailSpec := [{ path := "next.o", entry := "next", slot := some 0 }]

/-- Globals of one name and of different sizes are kept apart. -/
theorem linked_globals_private_two_sizes :
    ∃ out, link (counterLoads 4 8) counterTails = .ok out ∧
      GlobalsPrivate (counterLoads 4 8) out := by
  obtain ⟨out, hlink⟩ : ∃ out, link (counterLoads 4 8) counterTails = .ok out := ⟨_, rfl⟩
  refine ⟨out, hlink, (linked_globals_private_iff hlink).mpr ?_⟩
  exact ⟨⟨trivial, trivial⟩, ⟨⟨by decide, rfl⟩, trivial⟩, trivial⟩

/-- Globals of one name and one size are one global. -/
theorem linked_globals_shared :
    ¬ ∀ loads tails out, link loads tails = .ok out → GlobalsPrivate loads out := by
  intro h
  have hinj := (h (counterLoads 4 4) counterTails _ rfl).injective
  have heq : ((0, "counter") : Nat × String) = (1, "counter") :=
    hinj (.head _) (.tail _ (.head _)) rfl
  exact absurd (congrArg Prod.fst heq) (by decide)

end Hornet
