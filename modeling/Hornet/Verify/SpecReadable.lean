import Hornet.Verify.SpecErrors

/-!
Atoms from which no error of Python escapes: every value that the parser converts or looks
up, in the order in which it reads the atom, can be converted or looked up.
-/

namespace Hornet

open Lib

/-! ## Values -/

/-- A string in the place of a number is one. -/
def NumberReadable (v : Json) : Prop := ∀ s, v = .str s → (parseInt v).isSome

/-- A number that fits in `size` bytes. -/
def FitsSize (size : Int) (n : Option Int) : Prop :=
  ∃ k, n = some k ∧ 0 ≤ size ∧ 0 ≤ k ∧ k < 256 ^ size.toNat

/-- A number in hex, the parts of an address, or a number. -/
def TextReadable (size : Int) (cs : List Char) : Prop :=
  if cs.take 2 = ['0', 'x'] ∨ cs.take 2 = ['0', 'X'] then FitsSize size (PyStr.int16 cs)
  else if cs.contains '.' then ∀ part ∈ cs.splitOn '.', (PyStr.int part).isSome
  else if cs.contains ':' then ∀ part ∈ cs.splitOn ':', (PyStr.int16 part).isSome
  else FitsSize size (PyStr.int cs)

def BytesReadable (size : Int) : Json → Prop
  | .int n => FitsSize size (some n)
  | .arr items => (items.length : Int) = size → ∀ b ∈ items, b.toInt.isSome
  | .str s => TextReadable size (PyStr.strip s.toList)
  | _ => True

/-- The parts of an address have to be bytes as well. -/
def OctetsReadable (size : Int) (v : Json) : Prop :=
  BytesReadable size v ∧ ∀ bytes, parseValBytes size v = some bytes → ∀ b ∈ bytes, 0 ≤ b ∧ b < 256

/-- A number by the rules of `int`. -/
def IntReadable (v : Json) : Prop := v.toInt.isSome

/-! ## Atoms -/

section Atoms

variable (maps : Option (List MapDef)) (calls : Option (Dict Int CallRecord))
  (blocks : Option (List Block)) (block : Option Int) (a : List (String × Json))

/-- The member, if it is there, is as `P` says. -/
def MemberIs (k : String) (P : Json → Prop) : Prop := ∀ v, Json.get a k = some v → P v

def HelperReadable (idx : Json) : Prop :=
  ∀ cs, calls = some cs → NumberReadable idx ∧
    ∀ n, parseInt idx = some n → ∀ call, cs.get? n = some call → call.ret ≠ .transfer →
      MemberIs a "helper" (fun h => hashable h = true) ∧
        (MemberIs a "helper" (fun h => checkHelper call h = some ()) → call.ret = .scalar →
          MemberIs a "op" fun op => MemberIs a "value" fun value =>
            (parseRelOp op).isSome → NumberReadable value)

def RetReadable (ret : Json) : Prop :=
  block = none → MemberIs a "op" (fun op => (parseRelOp op).isSome) → NumberReadable ret

def BssReadable (bss : Json) : Prop :=
  bss.str?.isSome → MemberIs a "size" fun size => MemberIs a "value" fun value =>
    IntReadable size ∧ ∀ n, size.toInt = some n → 1 ≤ n →
      MemberIs a "offset" IntReadable ∧ OctetsReadable n value

/-- A map atom asks for the presence of a key or for its value, and not for the value of an
absent one. -/
def asksMap : Bool :=
  !((given a "contains").isNone && (given a "value").isNone) &&
    !((given a "value").isSome && (given a "contains").any Json.isFalse)

def MapReadable (ref : Json) : Prop :=
  ∀ m, resolveMap maps ref = some m → asksMap a = true →
    ∃ key, Json.get a "key" = some key ∧ OctetsReadable m.keySize key ∧
      ((parseMultibyteInt m.keySize key).isSome →
        ∀ value, given a "value" = some value → OctetsReadable m.valueSize value)

def LenReadable (bounds : Json) : Prop := (lenBounds bounds).isSome

def CtxReadable (ctx : Json) : Prop :=
  hashable ctx = true ∧
    ((ctxTarget ctx).isSome → ∃ value, Json.get a "value" = some value ∧ NumberReadable value)

def PktReadable : Prop :=
  MemberIs a "field" (fun field => hashable field = true) ∧
    (Json.get a "field" = none → MemberIs a "offset" fun offset => MemberIs a "size" fun size =>
      IntReadable offset ∧ IntReadable size) ∧
    ∀ place, pktPlace a = some place → MemberIs a "value" (BytesReadable place.2)

def ReadReadable (read : Json) : Prop :=
  ∀ sources, readSources blocks block = some sources → ∀ spec, read = .obj spec →
    MemberIs a "op" (fun op => (parseEqOp op).isSome) →
      MemberIs a "value" fun value => MemberIs spec "size" fun size =>
        IntReadable size ∧
          (MemberIs spec "map" (fun ref => (resolveMap maps ref).isSome) →
            MemberIs spec "offset" IntReadable) ∧
          ∀ place, readPlace maps read = some place →
            (assemble sources place.region place.offset place.size place.mapId).isSome →
              OctetsReadable place.size value

/-- The parser converts every part of the atom that it gets to. -/
def AtomReadable : Prop :=
  match atomKind a with
  | .helper idx => HelperReadable calls a idx
  | .ret value => RetReadable block a value
  | .read spec => ReadReadable maps blocks block a spec
  | kind => MemberIs a "op" (fun op => (parseEqOp op).isSome) →
      match kind with
      | .bss sym => BssReadable a sym
      | .map ref => MapReadable maps a ref
      | .len bounds => LenReadable bounds
      | .ctx target => CtxReadable a target
      | _ => PktReadable a

end Atoms

/-! ## What the parser converts -/

section Values

variable {size : Int} {v : Json}

theorem clean_parseInt : Clean (Raising.parseInt v) ↔ NumberReadable v := by
  unfold NumberReadable
  cases v with
  | str s =>
      have hstr : (∀ t, Json.str s = .str t → (parseInt (.str s)).isSome) ↔
          (parseInt (.str s)).isSome := ⟨fun h => h s rfl, fun h _ _ => h⟩
      rw [hstr]
      exact clean_orEscape
  | int n => exact ⟨fun _ => nofun, fun _ => clean_pure n⟩
  | _ => exact ⟨fun _ => nofun, fun _ => clean_rejected⟩

theorem clean_toInt : Clean (Raising.toInt v) ↔ IntReadable v := clean_orEscape

theorem toBytesBig_isSome {n : Int} : (toBytesBig n size).isSome = true ↔ FitsSize size (some n) := by
  unfold toBytesBig FitsSize
  constructor
  · intro h
    split at h
    · exact ⟨n, rfl, ‹_›⟩
    · cases h
  · rintro ⟨k, hk, hfits⟩
    obtain rfl := Option.some.inj hk
    rw [if_pos hfits]
    rfl

/-- A number that is to be written in `size` bytes. -/
theorem clean_number {n : Option Int} :
    Clean (orEscape (n.bind (toBytesBig · size))) ↔ FitsSize size n := by
  rw [clean_orEscape]
  cases n with
  | none => exact ⟨nofun, fun ⟨_, h, _⟩ => nomatch h⟩
  | some k => exact toBytesBig_isSome

theorem mapM_isSome {α β : Type} {f : α → Option β} {xs : List α} :
    (xs.mapM f).isSome = true ↔ ∀ x ∈ xs, (f x).isSome = true := by
  induction xs with
  | nil => exact ⟨fun _ => nofun, fun _ => rfl⟩
  | cons x xs ih =>
      rw [List.mapM_cons, List.forall_mem_cons, ← ih]
      cases f x with
      | none => exact ⟨nofun, fun h => nomatch h.1⟩
      | some y => cases xs.mapM f <;> simp

theorem clean_parseParts {read : List Char → Option Int} {sep : Char} {cs : List Char} :
    Clean (Raising.parseParts read sep cs size) ↔ ∀ part ∈ cs.splitOn sep, (read part).isSome := by
  unfold Raising.parseParts
  rw [clean_bind, clean_orEscape, mapM_isSome]
  exact ⟨fun h => h.1, fun h => ⟨h, fun parts _ => clean_orReject _⟩⟩

theorem clean_parseStrBytes {cs : List Char} :
    Clean (Raising.parseStrBytes cs size) ↔ TextReadable size cs := by
  unfold Raising.parseStrBytes TextReadable
  split
  · exact clean_number
  · split
    · exact clean_parseParts
    · split
      · exact clean_parseParts
      · exact clean_number

theorem clean_parseValBytes : Clean (Raising.parseValBytes size v) ↔ BytesReadable size v := by
  cases v with
  | int n => exact clean_orEscape.trans toBytesBig_isSome
  | arr items =>
      unfold Raising.parseValBytes BytesReadable
      dsimp only
      rw [clean_ite, clean_orEscape, mapM_isSome]
      simp
  | str s => exact clean_parseStrBytes
  | _ => exact ⟨fun _ => trivial, fun _ => clean_rejected⟩

theorem clean_parseMultibyteInt :
    Clean (Raising.parseMultibyteInt size v) ↔ OctetsReadable size v := by
  unfold Raising.parseMultibyteInt OctetsReadable
  rw [clean_bind, clean_parseValBytes]
  apply and_congr_right
  intro _
  apply forall_congr'
  intro bytes
  rw [← Raising.toOption_parseValBytes, toOption_eq_some, clean_ite]
  simp

end Values

section Atoms

variable {maps : Option (List MapDef)} {calls : Option (Dict Int CallRecord)}
  {blocks : Option (List Block)} {block : Option Int} {a : List (String × Json)} {v : Json}

theorem clean_lookupKey : Clean (Raising.lookupKey v) ↔ hashable v = true := by
  unfold Raising.lookupKey
  rw [clean_ite]
  simp

/-- Looking a value up, and rejecting one that is not found. -/
theorem clean_lookup {α : Type} {o : Option α} :
    Clean (Raising.lookupKey v >>= fun _ => orReject o) ↔ hashable v = true := by
  rw [clean_bind, clean_lookupKey]
  exact ⟨fun h => h.1, fun h => ⟨h, fun _ _ => clean_orReject _⟩⟩

theorem clean_checkHelper {call : CallRecord} :
    Clean (Raising.checkHelper call v) ↔ hashable v = true := clean_lookup

/-- What is read once the first part is known to be readable. -/
theorem and_then_iff {p q : Prop} : p ∧ (p → q) ↔ p ∧ q :=
  ⟨fun h => ⟨h.1, h.2 h.1⟩, fun h => ⟨h.1, fun _ => h.2⟩⟩

theorem isSome_then_iff {α : Type} {o : Option α} {p : Prop} :
    (o.isSome = true ∧ ∀ x, o = some x → p) ↔ o.isSome = true ∧ p := by
  cases o <;> simp

theorem ok_iff {α : Type} {x : Except Raised α} {o : Option α} (h : x.toOption = o) {y : α} :
    x = .ok y ↔ o = some y := by
  rw [← h]
  exact toOption_eq_some.symm

/-- A check of an optional part that succeeds. -/
theorem elim_eq_ok {o : Option Json} {f : Json → Except Raised Unit} {u : Unit} :
    o.elim (pure ()) f = .ok u ↔ ∀ v, o = some v → f v = .ok () := by
  cases o with
  | none => exact ⟨fun _ => nofun, fun _ => rfl⟩
  | some v => exact ⟨fun h w hw => Option.some.inj hw ▸ h, fun h => h v rfl⟩

/-- An optional part that is converted if it is there, and what is done then. -/
theorem forall_elim_ok {α : Type} {o : Option Json} {d : α} {f : Json → Except Raised α}
    {g : Json → Option α} (hg : ∀ v, (f v).toOption = g v) {P : Prop} :
    (∀ x, o.elim (pure d) f = .ok x → P) ↔ ((∀ v, o = some v → (g v).isSome = true) → P) := by
  cases o with
  | none => exact ⟨fun h _ => h d rfl, fun h _ _ => h nofun⟩
  | some v =>
      simp only [Option.elim_some, ok_iff (hg _), Option.some_inj, forall_eq',
        Option.isSome_iff_exists, forall_exists_index]

theorem clean_parseHelperAtom :
    Clean (Raising.parseHelperAtom calls v a) ↔ HelperReadable calls a v := by
  unfold Raising.parseHelperAtom HelperReadable MemberIs
  simp only [clean_bind, clean_orReject, true_and, orReject_eq_ok, clean_parseInt, clean_ite,
    clean_rejected, clean_elim (clean_pure ()), clean_checkHelper, implies_true, clean_pure,
    ok_iff (Raising.toOption_parseInt _), elim_eq_ok, ok_iff (Raising.toOption_checkHelper _ _),
    Option.isSome_iff_exists, forall_exists_index, and_true, ne_eq, forall_const]

theorem clean_parseRetAtom :
    Clean (Raising.parseRetAtom block v a) ↔ RetReadable block a v := by
  unfold Raising.parseRetAtom RetReadable MemberIs
  simp only [clean_ite, clean_bind, clean_rejected, implies_true, true_and, clean_pure,
    clean_elim (clean_pure _), clean_orReject, clean_parseInt,
    forall_elim_ok fun v => toOption_orReject (parseRelOp v), and_true,
    Option.not_isSome_iff_eq_none]

theorem clean_parseBssAtom (op : EqOp) :
    Clean (Raising.parseBssAtom op v a) ↔ BssReadable a v := by
  unfold Raising.parseBssAtom BssReadable MemberIs
  simp only [clean_bind, clean_orReject, true_and, orReject_eq_ok, clean_toInt, clean_ite,
    clean_rejected, clean_elim (clean_pure _), clean_parseMultibyteInt, implies_true, clean_pure,
    ok_iff (Raising.toOption_toInt _), and_true, Option.isSome_iff_exists, forall_exists_index,
    forall_elim_ok Raising.toOption_toInt, not_lt, IntReadable, and_then_iff]

theorem clean_parseMapAtom :
    Clean (Raising.parseMapAtom maps v a) ↔ MapReadable maps a v := by
  have hasks : asksMap a = true ↔
      ¬((given a "contains").isNone && (given a "value").isNone) = true ∧
        ¬((given a "value").isSome && (given a "contains").any Json.isFalse) = true := by
    unfold asksMap
    rw [Bool.and_eq_true, Bool.not_eq_true', Bool.not_eq_true', Bool.not_eq_true, Bool.not_eq_true]
  unfold Raising.parseMapAtom MapReadable
  simp only [hasks, and_imp, clean_orReject_bind, clean_orEscape_bind, clean_ite, clean_rejected,
    implies_true, true_and]
  simp only [clean_bind, clean_parseMultibyteInt, ok_iff (Raising.toOption_parseMultibyteInt _ _),
    clean_elim (clean_pure _), clean_pure, implies_true, and_true, Option.isSome_iff_exists,
    forall_exists_index]

theorem clean_parseLenAtom : Clean (Raising.parseLenAtom v) ↔ LenReadable v := by
  unfold Raising.parseLenAtom LenReadable
  simp only [clean_bind, clean_orEscape, clean_pure, implies_true, and_true]

theorem clean_parseCtxAtom : Clean (Raising.parseCtxAtom v a) ↔ CtxReadable a v := by
  unfold Raising.parseCtxAtom CtxReadable
  rw [clean_bind]
  apply and_congr clean_lookup
  simp only [ok_iff (Raising.toOption_ctxTarget _), clean_orEscape_bind, Option.isSome_iff_exists,
    forall_exists_index]
  simp only [clean_bind, clean_parseInt, clean_pure, implies_true, and_true]

theorem clean_bytesPlace :
    Clean (Raising.bytesPlace a) ↔ MemberIs a "offset" fun offset => MemberIs a "size" fun size =>
      IntReadable offset ∧ IntReadable size := by
  unfold Raising.bytesPlace MemberIs
  simp only [clean_bind, clean_orReject, orReject_eq_ok, true_and, clean_toInt, clean_pure,
    implies_true, and_true, ok_iff (Raising.toOption_toInt _), IntReadable, isSome_then_iff]

theorem clean_parsePktAtom (op : EqOp) : Clean (Raising.parsePktAtom op a) ↔ PktReadable a := by
  have hplace : ((Json.get a "field").elim (Raising.bytesPlace a) Raising.fieldPlace).toOption =
      pktPlace a := by
    unfold pktPlace Raising.bytesPlace
    simp only [toOption_elim, Raising.toOption_fieldPlace, toOption_bind, toOption_orReject,
      Raising.toOption_toInt, toOption_pure, Raising.bind_both]
    rfl
  unfold Raising.parsePktAtom PktReadable
  rw [clean_bind]
  simp only [ok_iff hplace, clean_orReject_bind]
  simp only [clean_bind, clean_parseValBytes, clean_pure, implies_true, and_true]
  rw [← and_assoc]
  apply and_congr_left
  intro _
  unfold MemberIs
  cases hfield : Json.get a "field" with
  | none =>
      rw [Option.elim_none, clean_bytesPlace]
      simp [MemberIs]
  | some field =>
      have hclean : Clean (Raising.fieldPlace field) ↔ hashable field = true := clean_lookup
      simp [hclean]

theorem clean_readPlace {size : Int} {spec : List (String × Json)} :
    Clean (Raising.readPlace maps size spec) ↔
      (MemberIs spec "map" (fun ref => (resolveMap maps ref).isSome) →
        MemberIs spec "offset" IntReadable) := by
  unfold Raising.readPlace MemberIs
  cases Json.get spec "map" with
  | none =>
      simp only [clean_bind, clean_orReject, orReject_eq_ok, true_and, clean_toInt, clean_pure,
        implies_true, and_true, reduceCtorEq, false_implies, forall_const]
  | some ref =>
      simp only [clean_bind, clean_orReject, orReject_eq_ok, true_and, clean_elim (clean_pure _),
        clean_toInt, clean_pure, implies_true, and_true, Option.some_inj, forall_eq',
        Option.isSome_iff_exists, forall_exists_index]

theorem clean_eqOp_bind {f : EqOp → Except Raised SpecAtom} {P : Prop} (h : ∀ op, Clean (f op) ↔ P) :
    Clean (Raising.eqOp a >>= f) ↔ (MemberIs a "op" (fun op => (parseEqOp op).isSome) → P) := by
  unfold Raising.eqOp MemberIs
  simp only [clean_bind, clean_elim (clean_pure _), clean_orReject, implies_true, true_and, h,
    forall_elim_ok fun v => toOption_orReject (parseEqOp v)]

/-- The place is read from its size on. -/
theorem readPlace_obj {size : Json} {spec : List (String × Json)}
    (hsize : Json.get spec "size" = some size) {place : ReadPlace} :
    readPlace maps (.obj spec) = some place ↔
      ∃ n, size.toInt = some n ∧ Raising.readPlace maps n spec = .ok place := by
  rw [Raising.toOption_readPlace, hsize, Option.bind_some, Option.bind_eq_some_iff]
  simp only [toOption_eq_some]

theorem clean_parseReadAtom :
    Clean (Raising.parseReadAtom maps blocks block v a) ↔ ReadReadable maps blocks block a v := by
  unfold Raising.parseReadAtom ReadReadable
  simp only [clean_orReject_bind]
  apply forall₂_congr
  intro sources _
  cases v with
  | obj spec =>
      simp only [Raising.obj?, Option.some_inj, forall_eq', Json.obj.injEq]
      apply clean_eqOp_bind
      intro op
      unfold MemberIs
      simp only [clean_orReject_bind]
      apply forall₂_congr
      intro value _
      apply forall₂_congr
      intro size hsize
      simp only [clean_bind, clean_toInt, ok_iff (Raising.toOption_toInt _), clean_readPlace,
        clean_orReject, orReject_eq_ok, clean_parseMultibyteInt, clean_pure, implies_true,
        and_true, true_and, readPlace_obj hsize, IntReadable]
      cases hn : size.toInt with
      | none => simp
      | some n => simp [Option.isSome_iff_exists, MemberIs, IntReadable]
  | _ => simp [Raising.obj?]

theorem clean_parseAtom :
    Clean (Raising.parseAtom maps calls blocks block a) ↔
      AtomReadable maps calls blocks block a := by
  unfold Raising.parseAtom AtomReadable
  cases hkind : atomKind a with
  | helper idx => exact clean_parseHelperAtom
  | ret value => exact clean_parseRetAtom
  | read spec => exact clean_parseReadAtom
  | bss sym => exact clean_eqOp_bind clean_parseBssAtom
  | map ref => exact clean_eqOp_bind fun _ => clean_parseMapAtom
  | len bounds => exact clean_eqOp_bind fun _ => clean_parseLenAtom
  | ctx target => exact clean_eqOp_bind fun _ => clean_parseCtxAtom
  | packet => exact clean_eqOp_bind clean_parsePktAtom

end Atoms

end Hornet
