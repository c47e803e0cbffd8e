import Hornet.Report.Scaffold
import Hornet.Verify.SpecComplete

/-!
The parser reads what is written for a program. The specification to start from is accepted as
it stands, and with the conditions of any blocks turned on, as they are or with conditions made
of the atoms that are listed for the block. Each of these atoms is read as one about the call or
about the bytes that it was written for.
-/

namespace Hornet

open Lib

section Atoms

variable {maps : Option (List MapDef)} {blocks : Option (List Block)} {block : Option Int}

theorem lookup_helperName :
    ∀ imm ∈ HELPER_IMM.map (·.2), HELPER_IMM.lookup (helperName imm) = some imm := by
  decide +kernel

theorem lookup_fieldName {off : Int} {size : Nat} {name : String}
    (h : fieldName off size = some name) :
    PROTOCOL_FIELDS.lookup name = some (off, (size : Int)) := by
  have hnames : ∀ x ∈ PROTOCOL_FIELDS, PROTOCOL_FIELDS.lookup x.1 = some x.2 := by decide +kernel
  obtain ⟨x, hx, rfl⟩ := Option.map_eq_some_iff.mp h
  have hplace : x.2 = (off, (size : Int)) := by simpa using List.find?_some hx
  rw [hnames x (List.mem_of_find?_eq_some hx), hplace]

theorem toBytesBig_zero (size : Nat) : toBytesBig 0 size = some (List.replicate size 0) := by
  unfold toBytesBig
  rw [if_pos ⟨Int.natCast_nonneg size, Int.le_refl 0, by positivity⟩]
  congr 1
  apply List.ext_getElem
  · simp
  · intro i _ _
    simp

theorem intOfBytes_zero (size : Nat) : intOfBytes (List.replicate size 0) = 0 := by
  induction size with
  | zero => rfl
  | succ size ih =>
      rw [List.replicate_succ, intOfBytes, ih]
      rfl

theorem parseValBytes_zero (size : Nat) :
    parseValBytes size (.int 0) = some (List.replicate size 0) :=
  toBytesBig_zero size

theorem parseMultibyteInt_zero (size : Nat) : parseMultibyteInt size (.int 0) = some 0 := by
  unfold parseMultibyteInt
  rw [parseValBytes_zero]
  simp [intOfBytes_zero]

/-- What an atom about a recorded call asks. -/
def CallRecord.asked (idx : Int) (c : CallRecord) : SpecAtom :=
  match c.ret with
  | .scalar => .helperScalar c.imm idx c.retSize .eq 0 c.retval
  | .pointer | .transfer => .helperNull c.imm idx true c.mapId c.mapKey c.mapKeyId

/-- The atom about a call is read as one about the call that is recorded. -/
theorem parseAtom_call {index : Dict Int CallRecord} {c : Call} {r : CallRecord}
    (hget : index.get? c.idx = some r) (himm : r.imm = c.imm) (hret : r.ret = c.returns)
    (hname : c.helper = helperName c.imm) (hmem : c.imm ∈ HELPER_IMM.map (·.2))
    {a : List (String × Json)} (ha : c.atom = some a) :
    parseAtom maps (some index) blocks block a = some (r.asked c.idx) := by
  have hcheck : checkHelper r (.str c.helper) = some () := by
    show (do
      let want ← HELPER_IMM.lookup c.helper
      if want = r.imm then some () else none) = some ()
    rw [hname, lookup_helperName c.imm hmem]
    exact if_pos himm.symm
  have hidx : ∀ rest, (Json.get (("idx", .int c.idx) :: rest) "idx").bind parseInt = some c.idx :=
    fun _ => rfl
  have hhelper : ∀ rest, (Json.get (("idx", .int c.idx) :: ("helper", .str c.helper) :: rest)
      "helper").elim (some ()) (checkHelper r) = some () :=
    fun _ => hcheck
  unfold Call.atom at ha
  split at ha
  · cases ha
  · rename_i hpointer
    cases ha
    show parseHelperAtom (some index) _ = _
    simp only [parseHelperAtom, CallRecord.asked, Option.bind_eq_bind, Option.bind_some, hidx, hget,
      hhelper, hret, hpointer]
    rfl
  · rename_i hscalar
    cases ha
    show parseHelperAtom (some index) _ = _
    simp only [parseHelperAtom, CallRecord.asked, Option.bind_eq_bind, Option.bind_some, hidx, hget,
      hhelper, hret, hscalar]
    rfl

/-- The byte `i` of the value of the map is one that a source has read. -/
def ReadsByte (sources : List Expr) (mapId : Option Nat) (at_ : Int) (part : Expr × Nat) : Prop :=
  part.1 ∈ sources ∧ ∃ block idx key keyId off varOff size,
    part.1 = .mapVal block idx mapId key keyId off varOff size ∧ part.2 < size ∧ at_ = off + part.2

/-- The bytes that a source has read of the value of a map. -/
def bytesOfMap (mapId : Option Nat) (v : Expr) : List (Int × (Expr × Nat)) :=
  match v with
  | .mapVal _ _ id _ _ off _ size =>
      if id = mapId then (List.range size).map fun (i : Nat) => (off + i, (v, i)) else []
  | _ => []

theorem byteIndex_map (sources : List Expr) (mapId : Option Nat) :
    byteIndex sources .MAP mapId = Dict.ofList (sources.flatMap (bytesOfMap mapId)) := by
  unfold byteIndex Dict.ofList
  rw [List.foldl_flatMap]
  congr 1
  funext out v
  cases v with
  | mapVal _ _ id _ _ off _ size =>
      unfold bytesOfMap
      dsimp only
      split
      · rw [List.foldl_map]
      · rfl
  | _ => rfl

theorem mem_bytesOfMap {sources : List Expr} {mapId : Option Nat} {o : Int} {part : Expr × Nat} :
    (o, part) ∈ sources.flatMap (bytesOfMap mapId) ↔ ReadsByte sources mapId o part := by
  rw [List.mem_flatMap]
  constructor
  · rintro ⟨v, hv, hmem⟩
    unfold bytesOfMap at hmem
    split at hmem
    · split at hmem
      · rename_i hid
        obtain ⟨i, hi, heq⟩ := List.mem_map.mp hmem
        cases heq
        subst hid
        exact ⟨hv, _, _, _, _, _, _, _, rfl, List.mem_range.mp hi, rfl⟩
      · cases hmem
    · cases hmem
  · rintro ⟨hv, block, idx, key, keyId, off, varOff, size, hpart, hlt, hoff⟩
    refine ⟨part.1, hv, ?_⟩
    rw [hpart]
    unfold bytesOfMap
    dsimp only
    rw [if_pos rfl]
    refine List.mem_map.mpr ⟨part.2, List.mem_range.mpr hlt, ?_⟩
    rw [← hpart, hoff]

/-- All bytes of a value that was read of a map are known, each from a read of it. -/
theorem assemble_read {sources : List Expr} {block : Nat} {idx : Int} {mapId : Option Nat}
    {key : Option Expr} {keyId : Option Int} {off : Int} {varOff : Option Expr} {size : Nat}
    (h : .mapVal block idx mapId key keyId off varOff size ∈ sources) :
    ∃ parts, assemble sources .MAP off size mapId = some parts ∧
      List.Forall₂ (fun (i : Nat) part => ReadsByte sources mapId (off + i) part)
        (List.range size) parts := by
  have hmapM : (List.range (size : Int).toNat).mapM (fun (i : Nat) =>
      (byteIndex sources .MAP mapId).get? (off + i)) = assemble sources .MAP off size mapId := rfl
  rw [← hmapM, Int.toNat_natCast]
  apply exists_mapM_of_forall
  intro i hi
  have hread : ReadsByte sources mapId (off + i)
      (.mapVal block idx mapId key keyId off varOff size, i) :=
    ⟨h, _, _, _, _, _, _, _, rfl, List.mem_range.mp hi, rfl⟩
  rw [byteIndex_map]
  obtain ⟨part, hpart⟩ := Dict.exists_get?_ofList (mem_bytesOfMap.mpr hread)
  exact ⟨part, hpart, mem_bytesOfMap.mp (Dict.mem_of_get?_ofList hpart)⟩

/-- What an atom about a read asks: for the bytes at its place in the packet, or for the bytes
of the map's value as the sources have read them. -/
inductive Read.Asked (sources : List Expr) (r : Read) : SpecAtom → Prop
  | pkt (h : r.kind = .pkt) : Asked sources r (.pkt r.off r.size (List.replicate r.size 0) .eq)
  | map (h : r.kind = .map) {parts : List (Expr × Nat)}
      (hparts : List.Forall₂ (fun (i : Nat) part => ReadsByte sources r.mapId (r.off + i) part)
        (List.range r.size) parts) :
      Asked sources r (.read parts .eq 0 r.size .MAP r.off r.mapId)

/-- A map that is read is found under the name that is shown for it. -/
def Read.Found (maps : Option (List MapDef)) (r : Read) : Prop :=
  r.kind = .map → ∃ name m, r.mapName = some name ∧ resolveMap maps (.str name) = some m ∧
    r.mapId = some m.id

end Atoms

/-- The field of a read is the place that was read. -/
theorem field_readOf {names : Dict Nat String} {v : Expr} {r : Read} (hr : readOf names v = some r)
    {field : String} (hfield : r.field = some field) : fieldName r.off r.size = some field := by
  unfold readOf at hr
  split at hr
  · cases hr
    exact hfield
  · cases hr
    cases hfield
  · cases hr

/-- A read of a map is that of a source. -/
theorem source_readOf {names : Dict Nat String} {v : Expr} {r : Read} (hr : readOf names v = some r)
    (hkind : r.kind = .map) : ∃ block idx key keyId varOff,
      v = .mapVal block idx r.mapId key keyId r.off varOff r.size := by
  unfold readOf at hr
  split at hr
  · cases hr
    cases hkind
  · cases hr
    exact ⟨_, _, _, _, _, rfl⟩
  · cases hr

section Atoms

variable {maps : Option (List MapDef)} {calls : Option (Dict Int CallRecord)}
  {blocks : Option (List Block)} {block : Option Int}

theorem parseAtom_offset (off size value : Json) :
    parseAtom maps calls blocks block
        [("offset", off), ("size", size), ("value", value), ("op", .str "eq")] =
      parsePktAtom .eq [("offset", off), ("size", size), ("value", value), ("op", .str "eq")] :=
  rfl

theorem parseAtom_field (field value : Json) :
    parseAtom maps calls blocks block [("field", field), ("value", value), ("op", .str "eq")] =
      parsePktAtom .eq [("field", field), ("value", value), ("op", .str "eq")] :=
  rfl

theorem parseAtom_place (place value : Json) :
    parseAtom maps calls blocks block [("read", place), ("value", value), ("op", .str "eq")] =
      parseReadAtom maps blocks block [("read", place), ("value", value), ("op", .str "eq")] :=
  rfl

theorem parseReadAtom_ok {sources : List Expr} (hsources : readSources blocks block = some sources)
    {place value : Json} {p : ReadPlace} (hplace : readPlace maps place = some p)
    {parts : List (Expr × Nat)}
    (hparts : assemble sources p.region p.offset p.size p.mapId = some parts) {target : Nat}
    (htarget : parseMultibyteInt p.size value = some target) :
    parseReadAtom maps blocks block [("read", place), ("value", value), ("op", .str "eq")] =
      some (.read parts .eq target p.size p.region p.offset p.mapId) := by
  have hop : (Json.get [("read", place), ("value", value), ("op", .str "eq")] "op").elim (some .eq)
      parseEqOp = some .eq := rfl
  have hread : (Json.get [("read", place), ("value", value), ("op", .str "eq")] "read").bind
      (readPlace maps) = some p := hplace
  have hvalue : (Json.get [("read", place), ("value", value), ("op", .str "eq")] "value").bind
      (parseMultibyteInt p.size) = some target := htarget
  simp only [parseReadAtom, hsources, hop, hread, hparts, hvalue, Option.bind_eq_bind,
    Option.bind_some]
  rfl

/-- The atom about a read is read as one about the bytes that were read. -/
theorem parseAtom_read {bs : List Block} {j : Nat} {self : Block} (hself : bs[j]? = some self)
    {names : Dict Nat String} {v : Expr} (hv : v ∈ self.sources) {r : Read}
    (hr : readOf names v = some r) (hfound : r.Found maps) {a : List (String × Json)}
    (ha : r.atom = some a) :
    ∃ atom, parseAtom maps calls (some bs) (some (j : Int)) a = some atom ∧
      r.Asked self.sources atom := by
  have hpkt : ∀ {place : List (String × Json)}, pktPlace place = some (r.off, (r.size : Int)) →
      (Json.get place "value") = some (.int 0) →
      parsePktAtom .eq place = some (.pkt r.off r.size (List.replicate r.size 0) .eq) := by
    intro place hplace hvalue
    simp only [parsePktAtom, hplace, hvalue, Option.bind_eq_bind, Option.bind_some,
      parseValBytes_zero]
    rfl
  unfold Read.atom at ha
  split at ha
  · cases ha
  · split at ha
    · rename_i field hkind hfield
      cases ha
      rw [parseAtom_field]
      exact ⟨_, hpkt (lookup_fieldName (field_readOf hr hfield)) rfl, .pkt hkind⟩
    · rename_i hkind hfield
      cases ha
      rw [parseAtom_offset]
      exact ⟨_, hpkt rfl rfl, .pkt hkind⟩
    · rename_i hkind
      cases ha
      obtain ⟨name, m, hname, hm, hid⟩ := hfound hkind
      obtain ⟨_, _, _, _, _, rfl⟩ := source_readOf hr hkind
      obtain ⟨parts, hparts, hall⟩ := assemble_read hv
      refine ⟨_, ?_, .map hkind hall⟩
      have hsources : readSources (some bs) (some (j : Int)) = some self.sources := by
        simp [readSources, hself]
      have hplace : readPlace maps (.obj [("map", (r.mapName.map .str).getD .null),
          ("offset", .int r.off), ("size", .int r.size)]) =
            some ⟨.MAP, r.off, r.size, r.mapId⟩ := by
        rw [hname, hid]
        show (do
          let m ← resolveMap maps (.str name)
          pure (ReadPlace.mk .MAP r.off r.size (some m.id))) = _
        rw [hm]
        rfl
      rw [parseAtom_place]
      exact parseReadAtom_ok hsources hplace hparts (parseMultibyteInt_zero r.size)

end Atoms

section Trees

variable {maps : Option (List MapDef)} {calls : Option (Dict Int CallRecord)}
  {blocks : Option (List Block)} {block : Option Int} {Q : SpecAtom → Prop}

/-- The parser reads an atom as one of a kind. -/
def AtomReadAs (maps : Option (List MapDef)) (calls : Option (Dict Int CallRecord))
    (blocks : Option (List Block)) (block : Option Int) (Q : SpecAtom → Prop)
    (a : List (String × Json)) : Prop :=
  ∃ atom, parseAtom maps calls blocks block a = some atom ∧ Q atom

/-- The parser reads a condition as one of atoms of a kind. -/
def CondReadAs (maps : Option (List MapDef)) (calls : Option (Dict Int CallRecord))
    (blocks : Option (List Block)) (block : Option Int) (Q : SpecAtom → Prop) (c : Json) : Prop :=
  ∃ cond, parseCond maps calls blocks block c = some cond ∧ ∀ atom ∈ cond.atoms, Q atom

def CondsReadAs (maps : Option (List MapDef)) (calls : Option (Dict Int CallRecord))
    (blocks : Option (List Block)) (block : Option Int) (Q : SpecAtom → Prop) (cs : List Json) :
    Prop :=
  ∃ conds, parseConds maps calls blocks block cs = some conds ∧
    ∀ atom ∈ SpecCond.atomsOf conds, Q atom

theorem AtomReadAs.cond {a : List (String × Json)} (h : AtomReadAs maps calls blocks block Q a) :
    CondReadAs maps calls blocks block Q (.obj a) := by
  obtain ⟨atom, hatom, hQ⟩ := h
  refine ⟨.leaf atom, ?_, ?_⟩
  · rw [parseCond_atom, hatom]
    · rfl
    · intro op k ha hop
      rw [ha, parseAtom_combinator _ _ _ _ hop k] at hatom
      cases hatom
  · intro atom' hmem
    rw [List.mem_singleton.mp hmem]
    exact hQ

theorem CondsReadAs.nil : CondsReadAs maps calls blocks block Q [] := by
  refine ⟨[], rfl, fun atom hmem => ?_⟩
  cases hmem

theorem CondsReadAs.cons {c : Json} {cs : List Json} (h : CondReadAs maps calls blocks block Q c)
    (hs : CondsReadAs maps calls blocks block Q cs) :
    CondsReadAs maps calls blocks block Q (c :: cs) := by
  obtain ⟨cond, hcond, hQ⟩ := h
  obtain ⟨conds, hconds, hQs⟩ := hs
  refine ⟨cond :: conds, ?_, ?_⟩
  · unfold parseConds
    rw [hcond, hconds]
    rfl
  · intro atom hmem
    exact (List.mem_append.mp hmem).elim (hQ atom) (hQs atom)

theorem CondsReadAs.cond {op : String} (hop : op = "and" ∨ op = "or") {cs : List Json}
    (h : CondsReadAs maps calls blocks block Q cs) :
    CondReadAs maps calls blocks block Q (.obj [(op, .arr cs)]) := by
  obtain ⟨conds, hconds, hQ⟩ := h
  cases cs with
  | nil =>
      refine ⟨.and [], ?_, nofun⟩
      rcases hop with rfl | rfl <;> rfl
  | cons c cs =>
      have hparse := parseCond_kids maps calls blocks block hop c cs
      rw [← parseConds_eq_mapM, hconds] at hparse
      refine ⟨_, hparse, ?_⟩
      rcases hop with rfl | rfl
      · exact hQ
      · exact hQ

theorem CondReadAs.not {a : List (String × Json)} (listed : Bool)
    (h : CondReadAs maps calls blocks block Q (.obj a)) :
    CondReadAs maps calls blocks block Q
      (.obj [("not", if listed then .arr [.obj a] else .obj a)]) := by
  obtain ⟨cond, hcond, hQ⟩ := h
  refine ⟨.not cond, ?_, hQ⟩
  cases listed with
  | false =>
      rw [if_neg (by simp), parseCond_not _ _ _ _ (by simp), hcond]
      rfl
  | true =>
      rw [if_pos rfl]
      show (parseCond maps calls blocks block (.obj a)).map SpecCond.not = _
      rw [hcond]
      rfl

variable {P : List (String × Json) → Prop}

mutual

/-- A tree of atoms of a kind is read as a condition of such atoms. -/
theorem condReadAs_tree (hP : ∀ a, P a → AtomReadAs maps calls blocks block Q a) :
    ∀ {tree : CondTree}, tree.Atoms P → CondReadAs maps calls blocks block Q tree.json
  | .atom a, h => by
      unfold CondTree.json
      exact (hP a h).cond
  | .not listed child, h => by
      obtain ⟨a, ha⟩ := child.exists_json
      have hatoms : child.Atoms P := h
      have hchild := condReadAs_tree hP hatoms
      unfold CondTree.json
      rw [ha] at hchild ⊢
      exact hchild.not listed
  | .and children, h => by
      unfold CondTree.json
      exact (condsReadAs_trees hP h).cond (.inl rfl)
  | .or children, h => by
      unfold CondTree.json
      exact (condsReadAs_trees hP h).cond (.inr rfl)

theorem condsReadAs_trees (hP : ∀ a, P a → AtomReadAs maps calls blocks block Q a) :
    ∀ {children : List CondTree}, CondTree.AtomsOf P children →
      CondsReadAs maps calls blocks block Q (CondTree.jsonList children)
  | [], _ => .nil
  | c :: cs, h => by
      unfold CondTree.jsonList
      exact .cons (condReadAs_tree hP h.1) (condsReadAs_trees hP h.2)

end

end Trees

section Nodes

theorem named_cons_note {x : String × Json} (h : isNote x.1 = true) (es : List (String × Json)) :
    named (x :: es) = named es :=
  List.filter_cons_of_neg (by simp [h])

theorem named_cons {x : String × Json} (h : isNote x.1 = false) (es : List (String × Json)) :
    named (x :: es) = x :: named es :=
  List.filter_cons_of_pos (by simp [h])

/-- Notes before the other entries of an object are not found. -/
theorem get_notes {es : List (String × Json)} (hes : ∀ x ∈ es, isNote x.1 = true) {k : String}
    (hk : isNote k = false) (rest : List (String × Json)) :
    Json.get (es ++ rest) k = Json.get rest k := by
  induction es with
  | nil => rfl
  | cons x es ih =>
      have hne : k ≠ x.1 := by
        rintro rfl
        rw [hes x List.mem_cons_self] at hk
        cases hk
      unfold Json.get at ih ⊢
      rw [List.cons_append, List.lookup_cons, beq_false_of_ne hne]
      exact ih fun y hy => hes y (List.mem_cons_of_mem _ hy)

theorem isNote_noteKeys (b : BlockContents) : ∀ k ∈ b.noteKeys, isNote k = true := by
  have hkeys : ∀ k ∈ ["_program", "_cfg", "_when_taken", "_returns", "_reads", "_calls", "_phis",
      "_writes"], isNote k = true := by decide +kernel
  intro k hk
  obtain ⟨x, hx, rfl⟩ := List.mem_map.mp hk
  exact hkeys x.1 (List.mem_map_of_mem (f := (·.1)) (List.mem_of_mem_filter hx))

variable {maps : Option (List MapDef)} {calls : Option (Dict Int CallRecord)} {bs : List Block}

theorem parseBlockCondition_ok {node : List (String × Json)} {block : Int}
    (hblock : Json.get node "block" = some (.int block)) (hin : 0 ≤ block ∧ block < bs.length)
    (hassert : Json.get node "assert" = some (.str "exists")) {c : SpecCond}
    (hcond : parseCond maps calls (some bs) (some block) (nodeCond node) = some c) (name : String) :
    parseBlockCondition maps calls (some bs) name (.obj node) =
      some { name := name, block := block, assertMode := .exists, cond := c } := by
  have hnum : (Json.get node "block").bind Json.toInt = some block := by
    rw [hblock]
    rfl
  have hcheck : checkBlock (some bs) block = some () := if_pos hin
  have hmode : (Json.get node "assert").elim (some .exists) parseMode = some AssertMode.exists := by
    rw [hassert]
    rfl
  simp only [parseBlockCondition, hnum, hcheck, hmode, hcond, Option.bind_eq_bind,
    Option.bind_some, Option.map_some]

/-- A block's condition is accepted if what stands in its place is. -/
theorem parseBlockCondition_node (notes : Notes) {b : BlockContents} (hnum : b.num < bs.length)
    {cond : Json} {c : SpecCond}
    (hcond : parseCond maps calls (some bs) (some (b.num : Int)) cond = some c) (name : String) :
    parseBlockCondition maps calls (some bs) name (b.node notes cond) =
      some { name := name, block := b.num, assertMode := .exists, cond := c } := by
  let ns := b.noteKeys.map (fun k => (k, notes.ofBlock b.num k)) ++
    if b.atoms.isEmpty then [] else [("_atoms", Json.arr (b.atoms.map .obj))]
  have hns : ∀ x ∈ ns, isNote x.1 = true := by
    intro x hx
    rcases List.mem_append.mp hx with hx | hx
    · obtain ⟨k, hk, rfl⟩ := List.mem_map.mp hx
      exact isNote_noteKeys b k hk
    · split at hx
      · cases hx
      · obtain rfl := List.mem_singleton.mp hx
        have hkey : isNote "_atoms" = true := by decide
        exact hkey
  have hnode : b.node notes cond = .obj (("block", .int b.num) :: (ns ++
      [("assert", .str "exists"), ("_cond", notes.ofBlock b.num "_cond"), ("cond", cond)])) := by
    unfold BlockContents.node
    simp only [ns, List.cons_append, List.nil_append, List.append_assoc]
  have hassert : Json.get (("block", .int b.num) :: (ns ++ [("assert", .str "exists"),
      ("_cond", notes.ofBlock b.num "_cond"), ("cond", cond)])) "assert" = some (.str "exists") :=
    get_notes hns rfl _
  have hplaced : nodeCond (("block", .int b.num) :: (ns ++ [("assert", .str "exists"),
      ("_cond", notes.ofBlock b.num "_cond"), ("cond", cond)])) = cond := by
    show (Json.get (ns ++ _) "cond").getD _ = cond
    rw [get_notes hns rfl]
    rfl
  rw [hnode]
  refine parseBlockCondition_ok rfl ⟨Int.natCast_nonneg _, Int.ofNat_lt.mpr hnum⟩ hassert ?_ name
  rw [hplaced]
  exact hcond

variable {Q : SpecAtom → Prop}

theorem condsReadAs_objs {blocks : Option (List Block)} {block : Option Int}
    {as : List (List (String × Json))} (h : ∀ a ∈ as, AtomReadAs maps calls blocks block Q a) :
    CondsReadAs maps calls blocks block Q (as.map .obj) := by
  induction as with
  | nil => exact .nil
  | cons a as ih =>
      exact .cons (h a List.mem_cons_self).cond (ih fun a ha => h a (List.mem_cons_of_mem _ ha))

theorem condReadAs_hits {b : BlockContents}
    (h : ∀ a ∈ b.atoms, AtomReadAs maps calls (some bs) (some (b.num : Int)) Q a) :
    CondReadAs maps calls (some bs) (some (b.num : Int)) Q b.hits := by
  have hpointer : ∀ a ∈ (b.calls.filter (·.returns = .pointer)).filterMap Call.atom,
      AtomReadAs maps calls (some bs) (some (b.num : Int)) Q a := by
    intro a ha
    obtain ⟨c, hc, hatom⟩ := List.mem_filterMap.mp ha
    exact h a (List.mem_append_left _ (List.mem_filterMap.mpr ⟨c, List.mem_of_mem_filter hc, hatom⟩))
  unfold BlockContents.hits
  split
  · exact CondsReadAs.nil.cond (.inl rfl)
  · rename_i a ha
    exact (hpointer a (by simp [ha])).cond
  · exact (condsReadAs_objs hpointer).cond (.inl rfl)

end Nodes

section Blocks

variable {maps : Option (List MapDef)} {calls : Option (Dict Int CallRecord)} {bs : List Block}
  (notes : Notes) {edit : Nat → Option (Option CondTree)} {Q : BlockContents → SpecAtom → Prop}

theorem isNote_disabled (b : BlockContents) : isNote (b.disabled notes).1 = true := by
  simp [BlockContents.disabled, isNote, String.toList_append]

theorem isNote_enabled (b : BlockContents) (tree : Option CondTree) :
    isNote (b.enabled notes tree).1 = false := by
  simp [BlockContents.enabled, isNote, String.toList_append]

/-- The condition that is parsed for a block that is turned on, with atoms of a kind. -/
structure TurnedOn (Q : BlockContents → SpecAtom → Prop) (b : BlockContents)
    (bc : SpecBlockCondition) : Prop where
  name : bc.name = "b" ++ toString b.num
  block : bc.block = b.num
  assertMode : bc.assertMode = .exists
  atoms : ∀ atom ∈ bc.cond.atoms, Q b atom

theorem parse_enabled {b : BlockContents} (hnum : b.num < bs.length)
    (hatoms : ∀ a ∈ b.atoms, AtomReadAs maps calls (some bs) (some (b.num : Int)) (Q b) a)
    {tree : Option CondTree} (htree : ∀ c, tree = some c → c.Atoms (· ∈ b.atoms)) :
    ∃ bc, parseBlockCondition maps calls (some bs) (b.enabled notes tree).1
      (b.enabled notes tree).2 = some bc ∧ TurnedOn Q b bc := by
  obtain ⟨cond, hcond, hQ⟩ : CondReadAs maps calls (some bs) (some (b.num : Int)) (Q b)
      ((tree.map CondTree.json).getD b.hits) := by
    cases tree with
    | none => exact condReadAs_hits hatoms
    | some c => exact condReadAs_tree hatoms (htree c rfl)
  exact ⟨_, parseBlockCondition_node notes hnum hcond _, rfl, rfl, rfl, hQ⟩

/-- The conditions that are turned on are accepted, and the others are skipped. -/
theorem parseSection_edited {contents : List BlockContents}
    (hnum : ∀ b ∈ contents, b.num < bs.length)
    (hatoms : ∀ b ∈ contents, (edit b.num).isSome = true → ∀ a ∈ b.atoms,
      AtomReadAs maps calls (some bs) (some (b.num : Int)) (Q b) a)
    (hedit : ∀ b ∈ contents, ∀ c, edit b.num = some (some c) → c.Atoms (· ∈ b.atoms)) :
    ∃ bcs, parseSection (parseBlockCondition maps calls (some bs))
        (.obj (contents.map (·.edited notes edit))) = some bcs ∧
      List.Forall₂ (TurnedOn Q) (contents.filter fun b => (edit b.num).isSome) bcs := by
  rw [parseSection_obj]
  induction contents with
  | nil => exact ⟨[], rfl, .nil⟩
  | cons b contents ih =>
      obtain ⟨bcs, hbcs, hall⟩ := ih (fun b hb => hnum b (List.mem_cons_of_mem _ hb))
        (fun b hb => hatoms b (List.mem_cons_of_mem _ hb))
        (fun b hb => hedit b (List.mem_cons_of_mem _ hb))
      rw [List.map_cons]
      cases hon : edit b.num with
      | none =>
          have hentry : b.edited notes edit = b.disabled notes := by
            unfold BlockContents.edited
            rw [hon]
          refine ⟨bcs, ?_, ?_⟩
          · rw [hentry, named_cons_note (isNote_disabled notes b)]
            exact hbcs
          · rw [List.filter_cons_of_neg (by simp [hon])]
            exact hall
      | some tree =>
          have hentry : b.edited notes edit = b.enabled notes tree := by
            unfold BlockContents.edited
            rw [hon]
          have htree : ∀ c, tree = some c → c.Atoms (· ∈ b.atoms) :=
            fun c hc => hedit b List.mem_cons_self c (hc ▸ hon)
          obtain ⟨bc, hbc, hturned⟩ := parse_enabled notes (hnum b List.mem_cons_self)
            (hatoms b List.mem_cons_self (by simp [hon])) htree
          refine ⟨bc :: bcs, ?_, ?_⟩
          · rw [hentry, named_cons (isNote_enabled notes b tree), List.mapM_cons, hbc, hbcs]
            rfl
          · rw [List.filter_cons_of_pos (by simp [hon])]
            exact .cons hturned hall

end Blocks

section Input

variable {F : Type} {scapy : Scapy F} {maps : Option (List MapDef)} (notes : Notes)

/-- The packet library builds layers of `n` bytes for an expression that assigns no field. -/
def Scapy.Builds (scapy : Scapy F) (template : String) (n : Nat) : Prop :=
  ∃ layers bytes mask, scapy.eval template = some layers ∧
    (∀ layer ∈ layers, ∀ f ∈ layer, scapy.assigned f = false) ∧
    packetByteFacts scapy.assigned scapy.addfield layers = .ok (bytes, mask) ∧ bytes.length = n

/-- What the library builds for the layers of a template, which are those of an Ethernet, an
IPv4 and a TCP header without options. -/
structure Scapy.Templates (scapy : Scapy F) : Prop where
  ether : scapy.Builds "Ether()" 14
  ip : scapy.Builds "Ether()/IP()" 34
  tcp : scapy.Builds "Ether()/IP()/TCP()" 54

/-- Without assigned fields the mask of a layer marks no byte. -/
theorem mask_layerByteFacts {assigned : F → Bool} {addfield : PacketBuf → F → PacketBuf}
    {layer : List F} (h : ∀ f ∈ layer, assigned f = false) {bytes : List UInt8} {mask : List Bool}
    (hfacts : layerByteFacts assigned addfield layer = .ok (bytes, mask)) : ∀ x ∈ mask, x = false := by
  have hfold : ∀ s : MaskState, (∀ x ∈ s.mask, x = false) →
      ∀ x ∈ (layer.foldl (MaskState.add assigned addfield) s).mask, x = false := by
    clear hfacts
    induction layer with
    | nil => exact fun s hs => hs
    | cons f layer ih =>
        intro s hs
        refine ih (fun g hg => h g (List.mem_cons_of_mem _ hg)) _ ?_
        intro x hx
        unfold MaskState.add at hx
        rw [h f List.mem_cons_self, Bool.and_false] at hx
        dsimp only at hx
        split at hx
        · rcases List.mem_append.mp hx with hx | hx
          · exact hs x hx
          · exact List.eq_of_mem_replicate hx
        · exact hs x hx
  unfold layerByteFacts at hfacts
  dsimp only at hfacts
  split at hfacts
  · cases hfacts
    exact hfold _ (by simp)
  · cases hfacts

theorem mask_packetByteFacts {assigned : F → Bool} {addfield : PacketBuf → F → PacketBuf}
    {layers : List (List F)} (h : ∀ layer ∈ layers, ∀ f ∈ layer, assigned f = false)
    {bytes : List UInt8} {mask : List Bool}
    (hfacts : packetByteFacts assigned addfield layers = .ok (bytes, mask)) :
    ∀ x ∈ mask, x = false := by
  induction layers generalizing bytes mask with
  | nil =>
      cases hfacts
      simp
  | cons layer layers ih =>
      obtain ⟨⟨p, first⟩, hlayer, hfacts⟩ := bind_eq_ok.mp hfacts
      obtain ⟨⟨rest, others⟩, hlayers, hfacts⟩ := bind_eq_ok.mp hfacts
      cases hfacts
      intro x hx
      rcases List.mem_append.mp hx with hx | hx
      · exact mask_layerByteFacts (h layer List.mem_cons_self) hlayer x hx
      · exact ih (fun l hl => h l (List.mem_cons_of_mem _ hl)) hlayers x hx

/-- A template fixes no byte. -/
theorem Scapy.Builds.facts {template : String} {n : Nat} (h : scapy.Builds template n) :
    ∃ x, packetFacts scapy (.str template) = some x ∧ x.1.length = n ∧ pktBytes x.1 x.2 = [] := by
  obtain ⟨layers, bytes, mask, heval, hassigned, hfacts, hlen⟩ := h
  refine ⟨(bytes, mask), ?_, hlen, ?_⟩
  · show (do
      let layers ← scapy.eval template
      (packetByteFacts scapy.assigned scapy.addfield layers).toOption) = _
    rw [heval]
    show (packetByteFacts scapy.assigned scapy.addfield layers).toOption = _
    rw [hfacts]
    rfl
  · have hmask := mask_packetByteFacts hassigned hfacts
    have hnone : mask.zipIdx.filter (·.1) = [] := by
      rw [List.filter_eq_nil_iff]
      intro x hx
      rw [hmask x.1 (List.fst_mem_of_mem_zipIdx hx)]
      exact Bool.false_ne_true
    unfold pktBytes
    rw [hnone]
    rfl

/-- The template that is laid out for the reads. -/
theorem Scapy.Templates.facts (h : scapy.Templates) (f : ProgramFacts) :
    ∃ x, packetFacts scapy (.str f.packetTemplate) = some x ∧ x.1.length ≤ 54 ∧
      pktBytes x.1 x.2 = [] := by
  have hfacts : ∀ {template : String} {n : Nat}, scapy.Builds template n → n ≤ 54 →
      f.packetTemplate = template → ∃ x, packetFacts scapy (.str f.packetTemplate) = some x ∧
        x.1.length ≤ 54 ∧ pktBytes x.1 x.2 = [] := by
    intro template n hbuilds hn htemplate
    obtain ⟨x, hx, hlen, hbytes⟩ := hbuilds.facts
    exact ⟨x, htemplate ▸ hx, hlen ▸ hn, hbytes⟩
  by_cases hip : f.depth > 14
  · by_cases htcp : f.depth > 34
    · apply hfacts h.tcp (by decide)
      simp [ProgramFacts.packetTemplate, hip, htcp]
    · apply hfacts h.ip (by decide)
      simp [ProgramFacts.packetTemplate, hip, htcp]
  · apply hfacts h.ether (by decide)
    have htcp : ¬f.depth > 34 := by omega
    simp [ProgramFacts.packetTemplate, hip, htcp]

theorem named_notes {es : List (String × Json)} (h : ∀ x ∈ es, isNote x.1 = true) : named es = [] :=
  List.filter_eq_nil_iff.mpr fun x hx => by simp [h x hx]

/-- No contents of a map are given. -/
theorem parseMapValues_mapsNode (f : ProgramFacts) :
    parseMapValues maps (mapsNode notes f) = some Dict.empty := by
  unfold mapsNode
  generalize hd : Dict.ofList ((f.maps.filter fun m => !m.lookups.isEmpty).map
    fun m => ("_" ++ m.name, notes.ofMap m.id)) = d
  have hnotes : ∀ x ∈ d.entries, isNote x.1 = true := by
    intro x hx
    have hkey : x.1 ∈ d.keys := List.mem_map_of_mem (f := (·.1)) hx
    obtain ⟨v, hv⟩ := Option.isSome_iff_exists.mp (Dict.get?_isSome.mpr hkey)
    subst hd
    obtain ⟨m, -, heq⟩ := List.mem_map.mp (Dict.mem_of_get?_ofList hv)
    rw [← congrArg (·.1) heq]
    simp [isNote, String.toList_append]
  unfold parseMapValues
  split
  · rfl
  · show ((named d.entries).mapM (parseMapValue maps)).map Dict.ofList = _
    rw [named_notes hnotes]
    rfl

/-- The length that the input declares. -/
def ProgramFacts.declaredLen (f : ProgramFacts) : Int :=
  if f.pktReads.isEmpty then 64 else max f.depth 54

/-- The input of a template: all bytes of the packet, all maps and all fields of the context are
left open. -/
def openInput (len : Int) : InputSpec where
  pktBytes := []
  pktLen := some len
  mapValues := Dict.empty
  ingressIfindex := none
  rxQueueIndex := none
  egressIfindex := none

/-- An input of a packet that fixes no byte, and of a length that is not below its own. -/
theorem parseInput_open {es : List (String × Json)} {packet : Json} {x : List UInt8 × List Bool}
    {len : Int} (hpacket : Json.get es "packet" = some packet)
    (hfacts : packetFacts scapy packet = some x) (hbytes : pktBytes x.1 x.2 = [])
    (hctx : Json.get es "context" = some (.obj [("pkt_len", .int len)]))
    (hmaps : parseMapValues maps ((Json.get es "maps").getD .null) = some Dict.empty)
    (hlen : (x.1.length : Int) ≤ len) :
    parseInput scapy maps (.obj es) = some (openInput len) := by
  have hdeclared : ctxInt (.obj [("pkt_len", .int len)]) "pkt_len" = some (some len) := rfl
  have hingress : ctxInt (.obj [("pkt_len", .int len)]) "ingress_ifindex" = some none := rfl
  have hrx : ctxInt (.obj [("pkt_len", .int len)]) "rx_queue_index" = some none := rfl
  have hegress : ctxInt (.obj [("pkt_len", .int len)]) "egress_ifindex" = some none := rfl
  have hshort : ¬len < (x.1.length : Int) := by omega
  unfold parseInput
  simp only [hpacket, hctx, hmaps, hdeclared, hingress, hrx, hegress, Option.mapM_some, hfacts,
    Option.getD_some, Option.bind_eq_bind, Option.bind_some, Option.map_eq_map, Option.map_some,
    hbytes, List.mapM_nil, Option.any_some, hshort, decide_false]
  rfl

theorem parseInput_inputNode (h : scapy.Templates) (f : ProgramFacts) :
    parseInput scapy maps (inputNode notes f) = some (openInput f.declaredLen) := by
  have hmaps : parseMapValues maps (mapsNode notes f) = some Dict.empty :=
    parseMapValues_mapsNode notes f
  unfold inputNode ProgramFacts.declaredLen
  split
  · show (do
      let values ← parseMapValues maps (mapsNode notes f)
      pure { openInput 64 with mapValues := values }) = _
    rw [hmaps]
    rfl
  · obtain ⟨x, hx, hlen, hbytes⟩ := h.facts f
    exact parseInput_open rfl hx hbytes rfl hmaps (by omega)

end Input

section Exits

variable {maps : Option (List MapDef)} {calls : Option (Dict Int CallRecord)} (notes : Notes)

/-- The parsed condition lowers to the same formula as another one, whatever the state. -/
def SameCondition (ec : ExitCondition) (c : SpecExitCondition) : Prop :=
  c.name = ec.name ∧ c.assertMode = ec.assertMode ∧
    ∀ (maps : List MapInfo) (numeral : Json → Option Int) (st : CondState maps),
      c.cond.toZ3 numeral st = (ec.cond.toZ3 st).mapError .lower

theorem parseExitCondition_exitNode {key : String} {cond : Json} {c : SpecCond}
    (hcond : parseCond maps calls none none cond = some c) (name : String) :
    parseExitCondition maps calls name (exitNode notes key cond) =
      some { name := name, assertMode := .all, cond := c } := by
  show (parseCond maps calls none none cond).map (fun cond =>
    ({ name := name, assertMode := .all, cond := cond } : SpecExitCondition)) = _
  rw [hcond]
  rfl

theorem parseConds_retAtoms (codes : List Int) :
    parseConds maps calls none none (codes.map retAtom) =
      some (codes.map fun c => .leaf (.ret .eq c)) := by
  induction codes with
  | nil => rfl
  | cons c codes ih =>
      rw [List.map_cons]
      unfold parseConds
      rw [ih]
      rfl

theorem toZ3List_retAtoms {maps : List MapInfo} (numeral : Json → Option Int)
    (st : CondState maps) (codes : List Int) :
    SpecCond.toZ3List numeral st (codes.map fun c => .leaf (.ret .eq c)) =
      (CondNode.toZ3List st (codes.map fun c => .leaf (.ret .eq c))).mapError .lower := by
  induction codes with
  | nil => rfl
  | cons c codes ih =>
      rw [List.map_cons, List.map_cons]
      unfold SpecCond.toZ3List CondNode.toZ3List
      rw [ih]
      cases CondNode.toZ3List st (codes.map fun c => .leaf (.ret .eq c)) <;> rfl

/-- The condition for the exits is the one for the observed returns. -/
theorem parseSection_exitEntries (codes : Option (List Int)) :
    ∃ ecs, parseSection (parseExitCondition maps calls) (.obj (exitEntries notes codes)) = some ecs ∧
      List.Forall₂ SameCondition (exitConditions codes).toList ecs := by
  rw [parseSection_obj]
  have hoff : isNote "_observed_returns" = true := by decide
  have hone : isNote "_one_return_only" = true := by decide
  have hon : isNote "observed_returns" = false := by decide
  cases codes with
  | none =>
      refine ⟨[], ?_, .nil⟩
      rw [exitEntries, named_cons_note hoff]
      rfl
  | some codes =>
      cases codes with
      | nil =>
          refine ⟨[], ?_, .nil⟩
          rw [exitEntries, named_cons_note hoff]
          rfl
      | cons c cs =>
          have hentries : ∀ {cond : Json} {parsed : SpecCond},
              parseCond maps calls none none cond = some parsed →
              (named [("observed_returns", exitNode notes "observed_returns" cond),
                  ("_one_return_only", exitNode notes "_one_return_only" (retAtom c))]).mapM
                (fun x => parseExitCondition maps calls x.1 x.2) =
              some [{ name := "observed_returns", assertMode := .all, cond := parsed }] := by
            intro cond parsed hparsed
            rw [named_cons hon, named_cons_note hone, List.mapM_cons,
              parseExitCondition_exitNode notes hparsed]
            rfl
          cases cs with
          | nil =>
              have hret : parseCond maps calls none none (retAtom c) = some (.leaf (.ret .eq c)) := rfl
              refine ⟨_, hentries hret, .cons ⟨rfl, rfl, ?_⟩ .nil⟩
              intro maps numeral st
              rfl
          | cons c' cs =>
              have hor : parseCond maps calls none none
                  (.obj [("or", .arr ((c :: c' :: cs).map retAtom))]) =
                    some (.or ((c :: c' :: cs).map fun c => .leaf (.ret .eq c))) := by
                show (parseConds maps calls none none ((c :: c' :: cs).map retAtom)).map _ = _
                rw [parseConds_retAtoms]
                rfl
              refine ⟨_, hentries hor, .cons ⟨rfl, rfl, ?_⟩ .nil⟩
              intro maps numeral st
              show (do
                let ts ← SpecCond.toZ3List numeral st ((c :: c' :: cs).map fun c => .leaf (.ret .eq c))
                pure (orTermsAny ts)) = Except.mapError CondError.lower (do
                  let ts ← CondNode.toZ3List st ((c :: c' :: cs).map fun c => .leaf (.ret .eq c))
                  pure (orTermsAny ts))
              rw [toZ3List_retAtoms]
              cases CondNode.toZ3List st ((c :: c' :: cs).map fun c => .leaf (.ret .eq c)) <;> rfl

end Exits

section Written

/-- A map with a name and a number of its own. -/
structure MapDef.NamedApart (maps : List MapDef) (m : MapDef) : Prop where
  mem : m ∈ maps
  named : m.name = some m.shownName
  apart : ∀ m' ∈ maps, m'.id = m.id ∨ m'.name = m.name → m' = m

/-- The maps that are read by the sources are named apart. -/
def ReadsNamed (maps : List MapDef) (sources : List Expr) : Prop :=
  ∀ v ∈ sources, ∀ r, readOf (mapNames maps) v = some r → r.kind = .map →
    ∃ m : MapDef, m.NamedApart maps ∧ r.mapId = some m.id

/-- A map that is named apart is shown under its name, and found under it. -/
theorem MapDef.NamedApart.found {maps : List MapDef} {m : MapDef} (h : m.NamedApart maps) :
    (mapNames maps).get? m.id = some m.shownName ∧
      resolveMap (some maps) (.str m.shownName) = some m := by
  constructor
  · have hmem : (m.id, m.shownName) ∈ maps.map fun m => (m.id, m.shownName) :=
      List.mem_map_of_mem h.mem
    obtain ⟨name, hname⟩ := Dict.exists_get?_ofList hmem
    obtain ⟨m', hm', heq⟩ := List.mem_map.mp (Dict.mem_of_get?_ofList hname)
    obtain rfl := h.apart m' hm' (.inl (congrArg (·.1) heq))
    exact hname.trans (congrArg (fun x => some x.2) heq).symm
  · have heq : ∀ m' : MapDef, ((Json.str m.shownName).eqInt m'.id ||
        (Json.str m.shownName).eqName m'.name) = decide (m'.name = m.name) := by
      intro m'
      rw [h.named]
      exact Bool.false_or _
    show maps.find? _ = _
    rw [funext heq]
    have hsome : (maps.find? fun m' => decide (m'.name = m.name)).isSome = true :=
      List.find?_isSome.mpr ⟨m, h.mem, by simp⟩
    obtain ⟨m', hm'⟩ := Option.isSome_iff_exists.mp hsome
    have hname : m'.name = m.name := by simpa using List.find?_some hm'
    rw [hm', h.apart m' (List.mem_of_find?_eq_some hm') (.inr hname)]

theorem found_readOf {maps : List MapDef} {sources : List Expr} (h : ReadsNamed maps sources)
    {v : Expr} (hv : v ∈ sources) {r : Read} (hr : readOf (mapNames maps) v = some r) :
    r.Found (some maps) := by
  intro hkind
  obtain ⟨m, hm, hid⟩ := h v hv r hr hkind
  obtain ⟨hname, hresolve⟩ := hm.found
  refine ⟨m.shownName, m, ?_, hresolve, hid⟩
  have hshown : r.mapName = r.mapId.bind (mapNames maps).get? := by
    unfold readOf at hr
    split at hr
    · cases hr
      cases hkind
    · cases hr
      rfl
    · cases hr
  rw [hshown, hid]
  exact hname

variable {P : Program} {cfg : List Block} {t : Tracker} (lenView : Event → Option Int)

/-- What an atom that is listed for a block asks: for bytes that the block has read, or about a
recorded call of the instruction that one of its calls is recorded of, of the same helper. -/
inductive Suggested (maps : List MapDef) (blocks : List Block) (b : Block) : SpecAtom → Prop
  | read {v : Expr} {r : Read} (hv : v ∈ b.sources) (hr : readOf (mapNames maps) v = some r)
      {atom : SpecAtom} (h : r.Asked b.sources atom) : Suggested maps blocks b atom
  | call {x : Int × CallRecord} (hx : x ∈ b.calls lenView) {r : CallRecord}
      (hget : (buildCallIndex lenView blocks).get? x.1 = some r) (himm : r.imm = x.2.imm)
      (hret : r.ret = x.2.ret) : Suggested maps blocks b (r.asked x.1)

theorem parseAtom_suggested (htrack : track P cfg = .ok t) {j : Nat} {b : Block}
    (hb : t.blocks[j]? = some b) {maps : List MapDef} (hnamed : ReadsNamed maps b.sources)
    (progs : List ProgRegion) {a : List (String × Json)}
    (ha : a ∈ (blockContents lenView (mapNames maps) progs b).atoms) :
    ∃ atom, parseAtom (some maps) (some (buildCallIndex lenView t.blocks)) (some t.blocks)
      (some (j : Int)) a = some atom ∧ Suggested lenView maps t.blocks b atom := by
  have hmem := List.mem_of_getElem? hb
  rcases List.mem_append.mp ha with ha | ha
  · obtain ⟨c, hc, hatom⟩ := List.mem_filterMap.mp ha
    have hcalls : c ∈ ((b.retvals.map fun r => (r.idx, r.callRecord)) ++
        b.actions.filterMap fun e => (e.callRecord lenView).map (e.idx, ·)).map callOf :=
      (List.perm_insertionSort _ _).mem_iff.mp hc
    obtain ⟨x, hx, rfl⟩ := List.mem_map.mp hcalls
    have hx : x ∈ b.calls lenView := List.mem_append.mpr (List.mem_append.mp hx).symm
    obtain ⟨r, hget, himm, hret⟩ := get?_buildCallIndex htrack hmem hx
    have hof := (recordsCalls_track htrack b hmem).of_calls hx
    exact ⟨_, parseAtom_call (c := callOf x) hget himm hret rfl hof.named hatom,
      .call hx hget himm hret⟩
  · obtain ⟨r, hr, hatom⟩ := List.mem_filterMap.mp ha
    have hreads : r ∈ b.sources.filterMap (readOf (mapNames maps)) :=
      (List.perm_insertionSort _ _).mem_iff.mp hr
    obtain ⟨v, hv, hread⟩ := List.mem_filterMap.mp hreads
    obtain ⟨atom, hparse, hasked⟩ := parseAtom_read hb hv hread (found_readOf hnamed hv hread) hatom
    exact ⟨atom, hparse, .read hv hread hasked⟩

/-- The top level of what is written holds the input and the two sections. -/
theorem parseSpec_specWith {F : Type} {scapy : Scapy F} {maps : Option (List MapDef)}
    {calls : Option (Dict Int CallRecord)} {blocks : Option (List Block)} (notes : Notes)
    (f : ProgramFacts) {entries : List (String × Json)} {input : InputSpec}
    (hinput : parseInput scapy maps (inputNode notes f) = some input)
    {bcs : List SpecBlockCondition}
    (hblocks : parseSection (parseBlockCondition maps calls blocks) (.obj entries) = some bcs)
    {ecs : List SpecExitCondition}
    (hexits : parseSection (parseExitCondition maps calls)
      (.obj (exitEntries notes (retCodes f.exits))) = some ecs) :
    parseSpec maps calls blocks scapy (specWith notes f entries) =
      some { input := some input, blockConditions := bcs, exitConditions := ecs } := by
  have hhornet : isNote "_hornet" = true := by decide
  have hhowto : isNote "_howto" = true := by decide
  have hin : isNote "input" = false := by decide
  have hblock : isNote "block_conditions" = false := by decide
  have hexit : isNote "exit_conditions" = false := by decide
  have hallowed : ["input", "block_conditions", "exit_conditions"].all TOP_LEVEL_KEYS.contains =
      true := by decide
  obtain ⟨raw, hraw⟩ : ∃ raw, raw = [("_hornet", notes.top "_hornet"), ("_howto", notes.top "_howto"),
      ("input", inputNode notes f), ("block_conditions", .obj entries),
      ("exit_conditions", .obj (exitEntries notes (retCodes f.exits)))] := ⟨_, rfl⟩
  have hkeys : (!(named raw).all fun x => TOP_LEVEL_KEYS.contains x.1) = false := by
    rw [hraw, named_cons_note hhornet, named_cons_note hhowto, named_cons hin, named_cons hblock,
      named_cons hexit]
    exact congrArg not hallowed
  have hany : (!TOP_LEVEL_KEYS.any (hasKey raw)) = false := by
    rw [hraw]
    rfl
  unfold specWith parseSpec
  rw [← hraw]
  dsimp only
  rw [hkeys, hany, hraw]
  show (do
    let input ← (some (inputNode notes f)).mapM (parseInput scapy maps)
    let blockConditions ← parseSection (parseBlockCondition maps calls blocks) (.obj entries)
    (parseSection (parseExitCondition maps calls)
      (.obj (exitEntries notes (retCodes f.exits)))).map fun exitConditions =>
        ({ input := input, blockConditions := blockConditions
           exitConditions := exitConditions } : Policy)) = _
  rw [Option.mapM_some, hinput, hblocks, hexits]
  rfl

/-- What an atom in the condition of a block asks. -/
def SuggestedAt (maps : List MapDef) (blocks : List Block) (b : BlockContents) (atom : SpecAtom) :
    Prop :=
  ∃ self, blocks[b.num]? = some self ∧ Suggested lenView maps blocks self atom

theorem editedScaffold_none (f : ProgramFacts) (blocks : Option (List Nat)) (notes : Notes) :
    editedScaffold notes f blocks (fun _ => none) = specScaffold notes f blocks :=
  rfl

end Written

/-! ### Example -/

def etherLayer (type : Nat) : List BitField :=
  [⟨"dst", 48, 2 ^ 48 - 1, false⟩, ⟨"src", 48, 0, false⟩, ⟨"type", 16, type, false⟩]

def ipLayer (len proto chksum : Nat) : List BitField :=
  [⟨"version", 4, 4, false⟩, ⟨"ihl", 4, 5, false⟩, ⟨"tos", 8, 0, false⟩, ⟨"len", 16, len, false⟩,
    ⟨"id", 16, 1, false⟩, ⟨"flags", 3, 0, false⟩, ⟨"frag", 13, 0, false⟩, ⟨"ttl", 8, 64, false⟩,
    ⟨"proto", 8, proto, false⟩, ⟨"chksum", 16, chksum, false⟩, ⟨"src", 32, 0x7f000001, false⟩,
    ⟨"dst", 32, 0x7f000001, false⟩]

def tcpLayer : List BitField :=
  [⟨"sport", 16, 20, false⟩, ⟨"dport", 16, 80, false⟩, ⟨"seq", 32, 0, false⟩, ⟨"ack", 32, 0, false⟩,
    ⟨"dataofs", 4, 5, false⟩, ⟨"reserved", 3, 0, false⟩, ⟨"flags", 9, 2, false⟩,
    ⟨"window", 16, 8192, false⟩, ⟨"chksum", 16, 0x917c, false⟩, ⟨"urgptr", 16, 0, false⟩]

/-- The packet library on the templates. -/
def templateLayers : Scapy BitField where
  eval template :=
    if template = "Ether()" then some [etherLayer 0x9000]
    else if template = "Ether()/IP()" then some [etherLayer 0x0800, ipLayer 20 0 0x7ce7]
    else if template = "Ether()/IP()/TCP()" then
      some [etherLayer 0x0800, ipLayer 40 6 0x7ccd, tcpLayer]
    else none
  assigned := BitField.explicit
  addfield := BitField.addfield

theorem templates_templateLayers : templateLayers.Templates where
  ether := ⟨_, _, _, rfl, by decide, rfl, rfl⟩
  ip := ⟨_, _, _, rfl, by decide, rfl, rfl⟩
  tcp := ⟨_, _, _, rfl, by decide, rfl, rfl⟩

/-- `return p[12]` -/
def readType : Program :=
  { instrs := [
      { exitInstr with opcodeClass := .LDX, opcodeMode := .MEM, srcReg := 1, dstReg := 2 },
      { exitInstr with opcodeClass := .LDX, opcodeMode := .MEM, opcodeSz := .B, srcReg := 2
                       offset := 12 },
      exitInstr]
    maps := [], progs := [], rodata := [] }

/-- Notes that say nothing. -/
def emptyNotes : Notes where
  top _ := .null
  ofMap _ := .null
  ofBlock _ _ := .null
  ofExit _ := .null

/-- The atom that is listed for the byte. -/
def typeAtom : List (String × Json) :=
  [("offset", .int 12), ("size", .int 1), ("value", .int 0), ("op", .str "eq")]

/-- The condition of the first block turned on, with the atom negated in its place. -/
def negatedType (n : Nat) : Option (Option CondTree) :=
  if n = 0 then some (some (.not false (.atom typeAtom))) else none

end Hornet
