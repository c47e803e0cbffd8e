import Hornet.Verify.Checker
import Hornet.Verify.Encoded
import Hornet.Verify.SpecLower
import Hornet.Verify.SpecReadable

/-!
Which accepted specifications can be lowered. An atom asks the state it is lowered in for
bytes, values and the presence of keys; besides, bounds have to be given and to be numerals,
and what is compared has to have bytes.
-/

namespace Hornet

open Lib Smt

/-- What an atom asks of the state. -/
inductive Ask where
  | byte (loc : Loc)
  | value (e : Expr)
  | hit (mapId : Option Nat) (mapKey : Option Expr) (mapKeyId : Option Int)

def CondState.Answers {maps : List MapInfo} (st : CondState maps) : Ask → Prop
  | .byte loc => Succeeds (st.readLoc loc)
  | .value e => Succeeds (exprToZ3 st.reads st.block st.sigma e)
  | .hit mapId mapKey mapKeyId =>
      Succeeds (Condition.toZ3 st.reads st.block st.sigma
        (.containMapValue mapId mapKey mapKeyId true))

/-- The bytes from a location on. -/
def askBytes (loc : Loc) (size : Nat) : List Ask :=
  (List.range size).map fun (i : Nat) => .byte { loc with off := loc.off + i, size := 1 }

def SpecAtom.asks : SpecAtom → List Ask
  | .pkt offset _ data _ => askBytes ⟨.PKT, offset, 1, none, none, none⟩ data.length
  | .map mapId key _ value keySize valueSize =>
      let mapKey := some (Expr.num key keySize (-1))
      .hit (some mapId) mapKey none ::
        if value.isSome then askBytes ⟨.MAP, 0, 1, some mapId, mapKey, none⟩ valueSize else []
  | .bss sym offset size _ _ => askBytes ⟨.BSS, offset, 1, none, none, some sym⟩ size.toNat
  | .len .. | .scalar .. | .ret .. => []
  | .helperScalar _ _ _ _ _ retval => [.value retval]
  | .helperNull _ _ _ mapId mapKey mapKeyId => [.hit mapId mapKey mapKeyId]
  | .read parts .. => parts.map fun part => .value part.1

/-- A bound that is left out, or that is a numeral. -/
def BoundGiven (numeral : Json → Option Int) (v : Json) : Prop :=
  v.isNull = true ∨ (numeral v).isSome = true

/-- The atom leaves no part out that its formula needs. -/
def SpecAtom.Complete (numeral : Json → Option Int) : SpecAtom → Prop
  | .map _ _ _ value keySize valueSize => keySize ≠ 0 ∧ (value.isSome = true → valueSize ≠ 0)
  | .bss _ _ size _ _ => 1 ≤ size
  | .len min max => (min.isNull = false ∨ max.isNull = false) ∧
      BoundGiven numeral min ∧ BoundGiven numeral max
  | .read parts .. => parts ≠ []
  | _ => True

section Atoms

variable {maps : List MapInfo} {numeral : Json → Option Int} {st : CondState maps}

theorem forall_askBytes {loc : Loc} {size : Nat} :
    (∀ q ∈ askBytes loc size, st.Answers q) ↔
      ∀ i < size, Succeeds (st.readLoc { loc with off := loc.off + (i : Int), size := 1 }) := by
  unfold askBytes
  rw [List.forall_mem_map]
  exact forall_congr' fun i => imp_congr_left List.mem_range

theorem succeeds_readBytes {loc : Loc} {size : Nat} :
    Succeeds (st.readBytes loc size) ↔ ∀ q ∈ askBytes loc size, st.Answers q := by
  unfold CondState.readBytes
  rw [succeeds_mapM, forall_askBytes]
  apply forall_congr'
  intro i
  exact imp_congr List.mem_range succeeds_map

theorem succeeds_bytesEq {loc : Loc} {size : Nat} {value : Int} :
    Succeeds (st.bytesEq loc size value) ↔
      (∀ q ∈ askBytes loc size, st.Answers q) ∧ size ≠ 0 := by
  unfold CondState.bytesEq
  rw [succeeds_then (p := size ≠ 0), succeeds_readBytes]
  intro cells hcells
  have hlen := length_mapM_ok hcells
  rw [List.length_range] at hlen
  rw [succeeds_map, succeeds_concatCells, ← hlen, ne_eq, ne_eq, List.length_eq_zero_iff]

theorem succeeds_containTerm {R : Option (Reads maps)} {blk : Option Nat} {sigma : Z3State maps}
    {id : Nat} {key : ZBv} {mapKeyId : Option Int} (r r' : Bool) :
    Succeeds (containTerm R blk sigma id key mapKeyId r) ↔
      Succeeds (containTerm R blk sigma id key mapKeyId r') := by
  unfold containTerm
  dsimp only
  split
  · exact ⟨fun _ => succeeds_pure _, fun _ => succeeds_pure _⟩
  · cases R with
    | none => exact ⟨fun _ => succeeds_pure _, fun _ => succeeds_pure _⟩
    | some R => exact succeeds_map.trans succeeds_map.symm

/-- Whether a hit or a miss is asked for does not matter. -/
theorem succeeds_hit {mapId : Option Nat} {mapKey : Option Expr} {mapKeyId : Option Int}
    {result : Bool} :
    Succeeds (Condition.toZ3 st.reads st.block st.sigma
      (.containMapValue mapId mapKey mapKeyId result)) ↔
      st.Answers (.hit mapId mapKey mapKeyId) := by
  unfold CondState.Answers Condition.toZ3
  cases mapId with
  | none => exact ⟨fun _ => succeeds_pure _, fun _ => succeeds_pure _⟩
  | some id =>
      cases mapKey with
      | none => exact ⟨fun _ => succeeds_pure _, fun _ => succeeds_pure _⟩
      | some key =>
          dsimp only
          rw [succeeds_bind, succeeds_bind]
          apply exists_congr
          intro k
          apply and_congr_right
          intro _
          rw [succeeds_map, succeeds_map, succeeds_containTerm result true]

theorem succeeds_lenBound {v : Json} : Succeeds (lenBound numeral v) ↔ BoundGiven numeral v := by
  unfold lenBound BoundGiven
  cases v.isNull with
  | true => exact ⟨fun _ => .inl rfl, fun _ => succeeds_pure _⟩
  | false =>
      cases numeral v with
      | none => exact ⟨fun h => absurd h (not_succeeds_throw _), fun h => by simp at h⟩
      | some n => exact ⟨fun _ => .inr rfl, fun _ => succeeds_pure _⟩

theorem lenBound_isNone {v : Json} {b : Option Int} (h : lenBound numeral v = .ok b) :
    b = none ↔ v.isNull = true := by
  unfold lenBound at h
  cases hnull : v.isNull with
  | true =>
      rw [hnull, if_pos rfl] at h
      cases h
      exact ⟨fun _ => rfl, fun _ => rfl⟩
  | false =>
      rw [hnull, if_neg nofun] at h
      cases hn : numeral v with
      | none =>
          rw [hn] at h
          cases h
      | some n =>
          rw [hn] at h
          cases h
          exact ⟨nofun, nofun⟩

/-- One of the two bounds has to be there. -/
theorem succeeds_len {lo hi : Option Int} :
    Succeeds ((Atom.len lo hi).toZ3 st) ↔ lo ≠ none ∨ hi ≠ none := by
  cases lo with
  | some n => exact ⟨fun _ => .inl nofun, fun _ => by cases hi <;> exact ⟨_, rfl⟩⟩
  | none =>
      cases hi with
      | some n => exact ⟨fun _ => .inr nofun, fun _ => ⟨_, rfl⟩⟩
      | none => exact ⟨fun h => absurd h (not_succeeds_throw _), fun h => by simp at h⟩

theorem succeeds_pkt {offset : Int} {data : List Nat} {op : EqOp} :
    Succeeds ((Atom.pkt offset data op).toZ3 st) ↔
      ∀ q ∈ askBytes ⟨.PKT, offset, 1, none, none, none⟩ data.length, st.Answers q := by
  unfold Atom.toZ3
  rw [succeeds_map, succeeds_mapM, forall_askBytes]
  constructor
  · intro h i hi
    have hmem : (data[i], i) ∈ data.zipIdx := by
      rw [List.mem_zipIdx_iff_getElem?]
      exact List.getElem?_eq_getElem hi
    exact succeeds_map.mp (h _ hmem)
  · rintro h ⟨d, i⟩ hmem
    rw [List.mem_zipIdx_iff_getElem?] at hmem
    have hi : i < data.length := (List.getElem?_eq_some_iff.mp hmem).1
    exact succeeds_map.mpr (h i hi)

theorem succeeds_map_atom {mapId : Nat} {key : Int} {present : Option Bool} {value : Option Int}
    {keySize valueSize : Nat} :
    Succeeds ((Atom.map mapId key present value keySize valueSize).toZ3 st) ↔
      st.Answers (.hit (some mapId) (some (.num key keySize (-1))) none) ∧
        (value.isSome = true →
          (∀ q ∈ askBytes ⟨.MAP, 0, 1, some mapId, some (.num key keySize (-1)), none⟩ valueSize,
            st.Answers q) ∧ valueSize ≠ 0) := by
  unfold Atom.toZ3
  dsimp only
  rw [succeeds_then, succeeds_hit]
  intro hit _
  cases value with
  | none => exact ⟨fun _ => nofun, fun _ => succeeds_pure _⟩
  | some n =>
      dsimp only
      rw [succeeds_map, succeeds_bytesEq]
      exact ⟨fun h _ => h, fun h => h rfl⟩

theorem succeeds_read {parts : List (Expr × Nat)} {op : EqOp} {target : Int} :
    Succeeds ((Atom.read parts op target).toZ3 st) ↔
      (∀ part ∈ parts, st.Answers (.value part.1)) ∧ parts ≠ [] := by
  unfold Atom.toZ3
  rw [succeeds_then (p := parts ≠ []), succeeds_mapM]
  · apply and_congr_left
    intro _
    apply forall₂_congr
    intro part _
    exact succeeds_map
  · intro bytes hbytes
    have hlen := length_mapM_ok hbytes
    rw [succeeds_map, succeeds_concatCells, ne_eq, ne_eq, ← List.length_eq_zero_iff, hlen,
      List.length_eq_zero_iff]

/-- An atom has a formula if it is complete and the state answers what it asks. -/
theorem succeeds_toZ3 {atom : SpecAtom} :
    Succeeds (atom.toZ3 numeral st) ↔
      atom.Complete numeral ∧ ∀ q ∈ atom.asks, st.Answers q := by
  have hatom : ∀ a : Atom, Succeeds ((pure a : Except CondError Atom) >>= fun a =>
      (a.toZ3 st).mapError CondError.lower) ↔ Succeeds (a.toZ3 st) := fun a => succeeds_mapError
  unfold SpecAtom.toZ3
  cases atom with
  | pkt offset size data op =>
      apply (hatom _).trans
      rw [succeeds_pkt, List.length_map]
      exact ⟨fun h => ⟨trivial, h⟩, fun h => h.2⟩
  | map mapId key present value keySize valueSize =>
      unfold SpecAtom.toAtom SpecAtom.Complete SpecAtom.asks
      dsimp only
      split
      · rename_i hzero
        exact ⟨fun h => absurd h (not_succeeds_throw _), fun h => absurd hzero h.1.1⟩
      · rename_i hsize
        apply (hatom _).trans
        rw [succeeds_map_atom, Option.isSome_map, List.forall_mem_cons]
        cases value.isSome <;> simp <;> tauto
  | bss sym offset size value op =>
      apply (hatom _).trans
      unfold Atom.toZ3
      rw [succeeds_map, succeeds_bytesEq, and_comm]
      have hsize : size.toNat ≠ 0 ↔ 1 ≤ size := by omega
      exact and_congr_left' hsize
  | len min max =>
      unfold SpecAtom.toAtom SpecAtom.Complete SpecAtom.asks
      simp only [bind_assoc, pure_bind, succeeds_bind, succeeds_mapError, succeeds_len]
      constructor
      · rintro ⟨lo, hlo, hi, hhi, hgiven⟩
        rw [ne_eq, ne_eq, lenBound_isNone hlo, lenBound_isNone hhi, Bool.not_eq_true,
          Bool.not_eq_true] at hgiven
        exact ⟨⟨hgiven, succeeds_lenBound.mp ⟨lo, hlo⟩, succeeds_lenBound.mp ⟨hi, hhi⟩⟩, nofun⟩
      · rintro ⟨⟨hgiven, hmin, hmax⟩, -⟩
        obtain ⟨lo, hlo⟩ := succeeds_lenBound.mpr hmin
        obtain ⟨hi, hhi⟩ := succeeds_lenBound.mpr hmax
        refine ⟨lo, hlo, hi, hhi, ?_⟩
        rwa [ne_eq, ne_eq, lenBound_isNone hlo, lenBound_isNone hhi, Bool.not_eq_true,
          Bool.not_eq_true]
  | scalar target value =>
      apply (hatom _).trans
      exact ⟨fun _ => ⟨trivial, nofun⟩, fun _ => succeeds_pure _⟩
  | helperScalar imm idx size op value retval =>
      apply (hatom _).trans
      unfold Atom.toZ3
      rw [succeeds_map]
      exact ⟨fun h => ⟨trivial, List.forall_mem_singleton.mpr h⟩, fun h => h.2 _ (List.mem_singleton.mpr rfl)⟩
  | helperNull imm idx result mapId mapKey mapKeyId =>
      apply (hatom _).trans
      unfold Atom.toZ3
      rw [succeeds_map, succeeds_hit]
      exact ⟨fun h => ⟨trivial, List.forall_mem_singleton.mpr h⟩,
        fun h => List.forall_mem_singleton.mp h.2⟩
  | ret op value =>
      apply (hatom _).trans
      exact ⟨fun _ => ⟨trivial, nofun⟩, fun _ => succeeds_pure _⟩
  | read parts op target size region offset mapId =>
      apply (hatom _).trans
      rw [succeeds_read, and_comm]
      exact and_congr_right' List.forall_mem_map.symm

end Atoms

/-! ## Atoms as they are written -/

/-- The atom states what its formula needs: a read has a size, a map has keys, and values if
one is asked for, and a length has a bound. -/
def AtomComplete (numeral : Json → Option Int) (defs : Option (List MapDef))
    (a : List (String × Json)) : Prop :=
  match atomKind a with
  | .read spec => ∀ place, readPlace defs spec = some place → 1 ≤ place.size
  | .map ref => ∀ m, resolveMap defs ref = some m →
      m.keySize ≠ 0 ∧ ((given a "value").isSome = true → m.valueSize ≠ 0)
  | .len bounds => ∀ r, lenBounds bounds = some r →
      (r.1.isNull = false ∨ r.2.isNull = false) ∧ BoundGiven numeral r.1 ∧ BoundGiven numeral r.2
  | _ => True

section Parse

variable {numeral : Json → Option Int} {defs : Option (List MapDef)}
  {calls : Option (Dict Int CallRecord)} {blocks : Option (List Block)} {block : Option Int}
  {a : List (String × Json)} {atom : SpecAtom}

theorem ok_of_parseAtom (h : parseAtom defs calls blocks block a = some atom) :
    Raising.parseAtom defs calls blocks block a = .ok atom := by
  rw [← toOption_eq_some, Raising.toOption_parseAtom, h]

theorem complete_helper {idx : Json} (h : Raising.parseHelperAtom calls idx a = .ok atom) :
    atom.Complete numeral := by
  unfold Raising.parseHelperAtom at h
  obtain ⟨cs, -, h⟩ := bind_eq_ok.mp h
  obtain ⟨n, -, h⟩ := bind_eq_ok.mp h
  obtain ⟨call, -, h⟩ := bind_eq_ok.mp h
  rcases ite_eq_ok h with ⟨-, h⟩ | ⟨-, h⟩
  · cases h
  · obtain ⟨_, -, h⟩ := bind_eq_ok.mp h
    rcases ite_eq_ok h with ⟨-, h⟩ | ⟨-, h⟩
    · obtain ⟨op, -, h⟩ := bind_eq_ok.mp h
      obtain ⟨value, -, h⟩ := bind_eq_ok.mp h
      obtain ⟨op, -, h⟩ := bind_eq_ok.mp h
      obtain ⟨value, -, h⟩ := bind_eq_ok.mp h
      cases h
      trivial
    · obtain ⟨result, -, h⟩ := bind_eq_ok.mp h
      cases h
      trivial

theorem complete_ret {ret : Json} (h : Raising.parseRetAtom block ret a = .ok atom) :
    atom.Complete numeral := by
  unfold Raising.parseRetAtom at h
  rcases ite_eq_ok h with ⟨-, h⟩ | ⟨-, h⟩
  · cases h
  · obtain ⟨op, -, h⟩ := bind_eq_ok.mp h
    obtain ⟨value, -, h⟩ := bind_eq_ok.mp h
    cases h
    trivial

theorem complete_bss {op : EqOp} {bss : Json} (h : Raising.parseBssAtom op bss a = .ok atom) :
    atom.Complete numeral := by
  unfold Raising.parseBssAtom at h
  obtain ⟨sym, -, h⟩ := bind_eq_ok.mp h
  obtain ⟨size, -, h⟩ := bind_eq_ok.mp h
  obtain ⟨value, -, h⟩ := bind_eq_ok.mp h
  obtain ⟨n, -, h⟩ := bind_eq_ok.mp h
  rcases ite_eq_ok h with ⟨-, h⟩ | ⟨hsize, h⟩
  · cases h
  · obtain ⟨offset, -, h⟩ := bind_eq_ok.mp h
    obtain ⟨value, -, h⟩ := bind_eq_ok.mp h
    cases h
    exact not_lt.mp hsize

theorem complete_ctx {ctx : Json} (h : Raising.parseCtxAtom ctx a = .ok atom) :
    atom.Complete numeral := by
  unfold Raising.parseCtxAtom at h
  obtain ⟨target, -, h⟩ := bind_eq_ok.mp h
  obtain ⟨value, -, h⟩ := bind_eq_ok.mp h
  obtain ⟨value, -, h⟩ := bind_eq_ok.mp h
  cases h
  trivial

theorem complete_pkt {op : EqOp} (h : Raising.parsePktAtom op a = .ok atom) :
    atom.Complete numeral := by
  unfold Raising.parsePktAtom at h
  obtain ⟨place, -, h⟩ := bind_eq_ok.mp h
  obtain ⟨value, -, h⟩ := bind_eq_ok.mp h
  obtain ⟨data, -, h⟩ := bind_eq_ok.mp h
  cases h
  trivial

theorem complete_len {bounds : Json} (h : Raising.parseLenAtom bounds = .ok atom) :
    atom.Complete numeral ↔ ∀ r, lenBounds bounds = some r →
      (r.1.isNull = false ∨ r.2.isNull = false) ∧ BoundGiven numeral r.1 ∧ BoundGiven numeral r.2 := by
  unfold Raising.parseLenAtom at h
  obtain ⟨r, hr, h⟩ := bind_eq_ok.mp h
  rw [orEscape_eq_ok] at hr
  cases h
  constructor
  · intro hcomplete r' hr'
    obtain rfl := Option.some.inj (hr.symm.trans hr')
    exact hcomplete
  · intro hall
    exact hall r hr

theorem complete_map {ref : Json} (h : Raising.parseMapAtom defs ref a = .ok atom) :
    atom.Complete numeral ↔ ∀ m, resolveMap defs ref = some m →
      m.keySize ≠ 0 ∧ ((given a "value").isSome = true → m.valueSize ≠ 0) := by
  unfold Raising.parseMapAtom at h
  obtain ⟨m, hm, h⟩ := bind_eq_ok.mp h
  rw [orReject_eq_ok] at hm
  rcases ite_eq_ok h with ⟨-, h⟩ | ⟨-, h⟩
  · cases h
  rcases ite_eq_ok h with ⟨-, h⟩ | ⟨-, h⟩
  · cases h
  obtain ⟨key, -, h⟩ := bind_eq_ok.mp h
  obtain ⟨k, -, h⟩ := bind_eq_ok.mp h
  obtain ⟨value, hvalue, h⟩ := bind_eq_ok.mp h
  cases h
  have hgiven : value.isSome = (given a "value").isSome := by
    cases hv : given a "value" with
    | none =>
        rw [hv] at hvalue
        cases hvalue
        rfl
    | some v =>
        rw [hv] at hvalue
        obtain ⟨n, -, hn⟩ := bind_eq_ok.mp hvalue
        cases hn
        rfl
  unfold SpecAtom.Complete
  dsimp only
  rw [hgiven]
  constructor
  · intro hcomplete m' hm'
    obtain rfl := Option.some.inj (hm.symm.trans hm')
    exact hcomplete
  · intro hall
    exact hall m hm

theorem complete_read {read : Json} (h : Raising.parseReadAtom defs blocks block read a = .ok atom) :
    atom.Complete numeral ↔ ∀ place, readPlace defs read = some place → 1 ≤ place.size := by
  unfold Raising.parseReadAtom at h
  obtain ⟨sources, -, h⟩ := bind_eq_ok.mp h
  obtain ⟨spec, hspec, h⟩ := bind_eq_ok.mp h
  obtain ⟨op, -, h⟩ := bind_eq_ok.mp h
  obtain ⟨value, -, h⟩ := bind_eq_ok.mp h
  obtain ⟨size, hsize, h⟩ := bind_eq_ok.mp h
  obtain ⟨n, hn, h⟩ := bind_eq_ok.mp h
  obtain ⟨place, hplace, h⟩ := bind_eq_ok.mp h
  obtain ⟨parts, hparts, h⟩ := bind_eq_ok.mp h
  obtain ⟨target, -, h⟩ := bind_eq_ok.mp h
  cases h
  rw [orReject_eq_ok] at hspec hsize hparts
  have hread : readPlace defs read = some place := by
    cases read with
    | obj es =>
        cases hspec
        exact (readPlace_obj hsize).mpr ⟨n, orEscape_eq_ok.mp hn, hplace⟩
    | _ => cases hspec
  have hlen : parts ≠ [] ↔ 1 ≤ place.size := by
    constructor
    · intro hne
      obtain ⟨part, hpart⟩ := List.exists_mem_of_ne_nil parts hne
      obtain ⟨i, hi, -⟩ := exists_of_mem_mapM hparts part hpart
      have hlt := List.mem_range.mp hi
      omega
    · intro hpos
      have hzero : 0 ∈ List.range place.size.toNat := List.mem_range.mpr (by omega)
      obtain ⟨part, hpart, -⟩ := exists_mem_of_mapM hparts 0 hzero
      exact List.ne_nil_of_mem hpart
  constructor
  · intro hcomplete place' hplace'
    obtain rfl := Option.some.inj (hread.symm.trans hplace')
    exact hlen.mp hcomplete
  · intro hall
    exact hlen.mpr (hall place hread)

/-- What is accepted is complete as it is written exactly if it is as it is read. -/
theorem complete_parseAtom (h : parseAtom defs calls blocks block a = some atom) :
    atom.Complete numeral ↔ AtomComplete numeral defs a := by
  have hok := ok_of_parseAtom h
  unfold Raising.parseAtom at hok
  unfold AtomComplete
  cases hkind : atomKind a with
  | helper idx =>
      rw [hkind] at hok
      exact iff_true_intro (complete_helper hok)
  | ret value =>
      rw [hkind] at hok
      exact iff_true_intro (complete_ret hok)
  | read spec =>
      rw [hkind] at hok
      exact complete_read hok
  | bss sym =>
      rw [hkind] at hok
      obtain ⟨op, -, hok⟩ := bind_eq_ok.mp hok
      exact iff_true_intro (complete_bss hok)
  | map ref =>
      rw [hkind] at hok
      obtain ⟨op, -, hok⟩ := bind_eq_ok.mp hok
      exact complete_map hok
  | len bounds =>
      rw [hkind] at hok
      obtain ⟨op, -, hok⟩ := bind_eq_ok.mp hok
      exact complete_len hok
  | ctx target =>
      rw [hkind] at hok
      obtain ⟨op, -, hok⟩ := bind_eq_ok.mp hok
      exact iff_true_intro (complete_ctx hok)
  | packet =>
      rw [hkind] at hok
      obtain ⟨op, -, hok⟩ := bind_eq_ok.mp hok
      exact iff_true_intro (complete_pkt hok)

end Parse

/-! ## Conditions -/

mutual

/-- The atoms of a condition, as its parser finds them. -/
def condAtoms : Json → List (List (String × Json))
  | .obj [(op, kids)] =>
      if op = "not" then
        match kids with
        | .arr [kid] => condAtoms kid
        | .arr _ => []
        | kid => condAtoms kid
      else if op = "and" ∨ op = "or" then
        match kids with
        | .arr kids => condsAtoms kids
        | _ => []
      else [[(op, kids)]]
  | .obj a => [a]
  | _ => []
termination_by structural c => c

def condsAtoms : List Json → List (List (String × Json))
  | [] => []
  | c :: cs => condAtoms c ++ condsAtoms cs
termination_by structural cs => cs

end

mutual

def SpecCond.atoms : SpecCond → List SpecAtom
  | .leaf atom => [atom]
  | .not child => child.atoms
  | .and children | .or children => SpecCond.atomsOf children

def SpecCond.atomsOf : List SpecCond → List SpecAtom
  | [] => []
  | c :: cs => c.atoms ++ SpecCond.atomsOf cs

end

section Conditions

variable {maps : List MapInfo} {numeral : Json → Option Int} {st : CondState maps}

mutual

/-- A condition has a formula if all its atoms have one. -/
theorem succeeds_cond : ∀ cond : SpecCond,
    Succeeds (cond.toZ3 numeral st) ↔ ∀ atom ∈ cond.atoms, Succeeds (atom.toZ3 numeral st)
  | .leaf atom => by
      unfold SpecCond.toZ3 SpecCond.atoms
      rw [List.forall_mem_singleton]
  | .not child => by
      unfold SpecCond.toZ3 SpecCond.atoms
      rw [succeeds_map, succeeds_cond child]
  | .and children => by
      unfold SpecCond.toZ3 SpecCond.atoms
      rw [succeeds_map, succeeds_conds children]
  | .or children => by
      unfold SpecCond.toZ3 SpecCond.atoms
      rw [succeeds_map, succeeds_conds children]

theorem succeeds_conds : ∀ conds : List SpecCond,
    Succeeds (SpecCond.toZ3List numeral st conds) ↔
      ∀ atom ∈ SpecCond.atomsOf conds, Succeeds (atom.toZ3 numeral st)
  | [] => ⟨fun _ => nofun, fun _ => succeeds_pure _⟩
  | c :: cs => by
      unfold SpecCond.toZ3List SpecCond.atomsOf
      rw [succeeds_then fun _ _ => succeeds_map, succeeds_cond c, succeeds_conds cs,
        List.forall_mem_append]

end

variable {defs : Option (List MapDef)} {calls : Option (Dict Int CallRecord)}
  {blocks : Option (List Block)} {block : Option Int}

theorem condAtoms_atom {a : List (String × Json)} (ha : ∀ op k, a = [(op, k)] → ¬ IsCombinator op) :
    condAtoms (.obj a) = [a] := by
  unfold condAtoms
  split
  · rename_i op kids heq
    cases heq
    have hop := ha op kids rfl
    unfold IsCombinator at hop
    rw [if_neg (fun h => hop (.inl h)), if_neg (fun h => hop (.inr h))]
  · rename_i a' _ heq
    cases heq
    rfl
  · rename_i hobj
    exact absurd rfl (hobj a)

theorem condAtoms_not {kids : Json} (hkids : ∀ ks, kids ≠ .arr ks) :
    condAtoms (.obj [("not", kids)]) = condAtoms kids := by
  cases kids with
  | arr ks => exact absurd rfl (hkids ks)
  | _ => rfl

theorem condAtoms_kids {op : String} (hop : op = "and" ∨ op = "or") (ks : List Json) :
    condAtoms (.obj [(op, .arr ks)]) = ks.flatMap condAtoms := by
  have hconds : ∀ cs, condsAtoms cs = cs.flatMap condAtoms := by
    intro cs
    induction cs with
    | nil => rfl
    | cons c cs ih =>
        rw [List.flatMap_cons, ← ih]
        rfl
  rw [← hconds]
  unfold condAtoms
  rcases hop with rfl | rfl <;> simp

/-- The atoms of `c` are read as the atoms of the condition. -/
def AtomsRead (defs : Option (List MapDef)) (calls : Option (Dict Int CallRecord))
    (blocks : Option (List Block)) (block : Option Int) (c : Json) (cond : SpecCond) : Prop :=
  List.Forall₂ (fun a atom => parseAtom defs calls blocks block a = some atom) (condAtoms c)
    cond.atoms

theorem atomsOf_eq (conds : List SpecCond) :
    SpecCond.atomsOf conds = conds.flatMap SpecCond.atoms := by
  induction conds with
  | nil => rfl
  | cons c cs ih =>
      rw [List.flatMap_cons, ← ih]
      rfl

/-- The children of an accepted conjunction or disjunction are read one by one. -/
theorem atoms_kids {ks : List Json} {conds : List SpecCond}
    (h : ks.mapM (parseCond defs calls blocks block) = some conds)
    (hkid : ∀ k ∈ ks, ∀ cond, parseCond defs calls blocks block k = some cond →
      AtomsRead defs calls blocks block k cond) :
    List.Forall₂ (fun a atom => parseAtom defs calls blocks block a = some atom)
      (ks.flatMap condAtoms) (SpecCond.atomsOf conds) := by
  rw [atomsOf_eq]
  induction ks generalizing conds with
  | nil =>
      cases h
      exact .nil
  | cons k ks ih =>
      rw [List.mapM_cons] at h
      obtain ⟨cond, hcond, h⟩ := Option.bind_eq_some_iff.mp h
      obtain ⟨conds', hconds, h⟩ := Option.bind_eq_some_iff.mp h
      cases h
      rw [List.flatMap_cons, List.flatMap_cons]
      apply List.rel_append (hkid k (by simp) cond hcond)
      exact ih hconds fun k' hk' => hkid k' (by simp [hk'])

/-- A combinator whose children are read. -/
theorem atoms_combinator {op : String} {kids : Json} (hop : IsCombinator op)
    (hchild : ∀ k, sizeOf k ≤ sizeOf kids → ∀ cond, parseCond defs calls blocks block k = some cond →
      AtomsRead defs calls blocks block k cond) {cond : SpecCond}
    (h : parseCond defs calls blocks block (.obj [(op, kids)]) = some cond) :
    AtomsRead defs calls blocks block (.obj [(op, kids)]) cond := by
  rcases hop with rfl | hop
  · by_cases hlist : ∃ ks, kids = .arr ks
    · obtain ⟨ks, rfl⟩ := hlist
      match ks with
      | [] => cases h
      | [k] =>
          obtain ⟨child, hkid, rfl⟩ := Option.map_eq_some_iff.mp
            (show (parseCond defs calls blocks block k).map SpecCond.not = some cond from h)
          have hread := hchild k (by simp; omega) child hkid
          exact hread
      | _ :: _ :: _ => cases h
    · have hkids : ∀ ks, kids ≠ .arr ks := fun ks heq => hlist ⟨ks, heq⟩
      rw [parseCond_not _ _ _ _ hkids] at h
      obtain ⟨child, hkid, rfl⟩ := Option.map_eq_some_iff.mp h
      have hread := hchild kids (Nat.le_refl _) child hkid
      unfold AtomsRead
      rw [condAtoms_not hkids]
      exact hread
  · cases kids with
    | arr ks =>
        unfold AtomsRead
        rw [condAtoms_kids hop]
        cases ks with
        | nil =>
            have hempty : SpecCond.and [] = cond := by
              rcases hop with rfl | rfl <;> exact Option.some.inj h
            subst hempty
            exact .nil
        | cons k ks =>
            rw [parseCond_kids _ _ _ _ hop] at h
            obtain ⟨conds, hconds, rfl⟩ := Option.map_eq_some_iff.mp h
            have hatoms := atoms_kids hconds fun k' hk' => hchild k' (by
              have hlt := List.sizeOf_lt_of_mem hk'
              simp only [Json.arr.sizeOf_spec]
              omega)
            rcases hop with rfl | rfl <;> exact hatoms
    | _ => rcases hop with rfl | rfl <;> cases h

/-- Each atom of an accepted condition is read as the atom in its place. -/
theorem atoms_parseCond (c : Json) : ∀ cond, parseCond defs calls blocks block c = some cond →
    AtomsRead defs calls blocks block c cond := by
  induction hn : sizeOf c using Nat.strong_induction_on generalizing c with
  | _ n ih =>
      subst hn
      intro cond h
      cases c with
      | obj es =>
          by_cases hcomb : ∃ op kids, es = [(op, kids)] ∧ IsCombinator op
          · obtain ⟨op, kids, rfl, hop⟩ := hcomb
            apply atoms_combinator hop _ h
            intro k hk
            have hsize : sizeOf k < sizeOf (Json.obj [(op, kids)]) := by
              simp only [Json.obj.sizeOf_spec, List.cons.sizeOf_spec, Prod.mk.sizeOf_spec]
              omega
            exact ih _ hsize k rfl
          · have ha : ∀ op k, es = [(op, k)] → ¬ IsCombinator op := fun op k heq hop =>
              hcomb ⟨op, k, heq, hop⟩
            rw [parseCond_atom _ _ _ _ ha] at h
            obtain ⟨atom, hatom, rfl⟩ := Option.map_eq_some_iff.mp h
            unfold AtomsRead
            rw [condAtoms_atom ha]
            exact .cons hatom .nil
      | _ => cases h

/-- The state answers all that the atom asks. -/
def AtomAnswered (defs : Option (List MapDef)) (calls : Option (Dict Int CallRecord))
    (blocks : Option (List Block)) (block : Option Int) (st : CondState maps)
    (a : List (String × Json)) : Prop :=
  ∀ atom, parseAtom defs calls blocks block a = some atom → ∀ q ∈ atom.asks, st.Answers q

theorem succeeds_parseAtom {a : List (String × Json)} {atom : SpecAtom}
    (h : parseAtom defs calls blocks block a = some atom) :
    Succeeds (atom.toZ3 numeral st) ↔
      AtomComplete numeral defs a ∧ AtomAnswered defs calls blocks block st a := by
  rw [succeeds_toZ3, complete_parseAtom h]
  apply and_congr_right
  intro _
  constructor
  · intro hasks atom' hatom'
    obtain rfl := Option.some.inj (h.symm.trans hatom')
    exact hasks
  · intro hanswered
    exact hanswered atom h

/-- An accepted condition has a formula if its atoms are complete and answered. -/
theorem succeeds_parseCond {c : Json} {cond : SpecCond}
    (h : parseCond defs calls blocks block c = some cond) :
    Succeeds (cond.toZ3 numeral st) ↔ ∀ a ∈ condAtoms c,
      AtomComplete numeral defs a ∧ AtomAnswered defs calls blocks block st a := by
  have hread : List.Forall₂ (fun a atom => parseAtom defs calls blocks block a = some atom)
      (condAtoms c) cond.atoms := atoms_parseCond c cond h
  rw [succeeds_cond]
  generalize condAtoms c = as, cond.atoms = atoms at hread
  induction hread with
  | nil => exact ⟨fun _ => nofun, fun _ => nofun⟩
  | cons hatom _ ih =>
      rw [List.forall_mem_cons, List.forall_mem_cons]
      exact and_congr (succeeds_parseAtom hatom) ih

end Conditions

end Hornet
