import Hornet.Lib.Patch
import Hornet.Track.MemoryStep
import Hornet.Verify.SpecLower
import Hornet.Verify.Widths

/-!
The literals of a specification and what they are compared to. A literal is a number or
the list of its bytes; as bytes it stands at ascending addresses, a number with its most
significant byte first.
-/

namespace Hornet

open Lib Smt

/-! ## Literals -/

/-- A literal as it is written. -/
inductive Written where
  | number (n : Int)
  | parts (bytes : List Int)

/-- The number that an item of a list is. -/
def component : Json → Option Int
  | .float (.finite q) => if q.den = 1 then some q.num else none
  | item => item.toInt

/-- The literal in a text: in hex, as an IPv4 or a MAC address, or a decimal number. -/
def writtenText (v : List Char) : Option Written :=
  if v.take 2 = ['0', 'x'] ∨ v.take 2 = ['0', 'X'] then (PyStr.int16 v).map .number
  else if v.contains '.' then ((v.splitOn '.').mapM PyStr.int).map .parts
  else if v.contains ':' then ((v.splitOn ':').mapM PyStr.int16).map .parts
  else (PyStr.int v).map .number

def written : Json → Option Written
  | .int n => some (.number n)
  | .arr items => (items.mapM component).map .parts
  | .str s => writtenText (PyStr.strip s.toList)
  | _ => none

/-- The bytes as integers. -/
def byteInts (obs : List (BitVec 8)) : List Int := obs.map fun b => (b.toNat : Int)

namespace Written

/-- Every component of the literal fits its place among `size` bytes. -/
def Fits (size : Nat) : Written → Prop
  | .number n => 0 ≤ n ∧ n < 256 ^ size
  | .parts bytes => bytes.length = size ∧ ∀ b ∈ bytes, 0 ≤ b ∧ b < 256

/-- Bytes at ascending addresses are the literal. -/
def Names (obs : List (BitVec 8)) : Written → Prop
  | .number n => (joinNat obs.reverse : Int) = n
  | .parts bytes => byteInts obs = bytes

end Written

/-- A literal in an atom fits the bytes it is compared to. -/
def FitsBytes (size : Nat) (value : Option Json) : Prop :=
  ∃ v w, value = some v ∧ written v = some w ∧ w.Fits size

section Bytes

variable {obs : List (BitVec 8)} {data : List Int} {size : Int}

theorem byteInts_bounds (obs : List (BitVec 8)) : ∀ b ∈ byteInts obs, 0 ≤ b ∧ b < 256 := by
  intro b hb
  obtain ⟨x, -, rfl⟩ := List.mem_map.mp hb
  have hx : x.toNat < 256 := x.isLt
  omega

theorem byteInts_inj {obs obs' : List (BitVec 8)} (h : byteInts obs = byteInts obs') : obs = obs' := by
  have hinj : Function.Injective fun b : BitVec 8 => (b.toNat : Int) := fun x y hxy =>
    BitVec.eq_of_toNat_eq (Int.ofNat.inj hxy)
  exact List.map_injective_iff.mpr hinj h

/-- The bytes of a number, the most significant first. -/
theorem digits_reverse (xs : List (BitVec 8)) :
    ((List.range xs.length).map fun i =>
      (joinNat xs : Int) / 256 ^ (xs.length - 1 - i) % 256) = byteInts xs.reverse := by
  apply List.ext_getElem
  · simp [byteInts]
  · intro i hi hi'
    have hlen : i < xs.length := by simpa using hi
    have hdigit := digit_joinNat xs (xs.length - 1 - i)
    have hpow : (256 : Nat) ^ (xs.length - 1 - i) = 2 ^ (8 * (xs.length - 1 - i)) :=
      (Nat.pow_mul 2 8 _).symm
    have hrev : i < xs.reverse.length := by simpa using hlen
    have hget : xs.getD (xs.length - 1 - i) 0#8 = xs.reverse[i] := by
      rw [List.getElem_reverse, List.getD_eq_getElem _ _ (by omega)]
    rw [← hpow, hget] at hdigit
    simp only [List.getElem_map, List.getElem_range, byteInts]
    rw [← hdigit]
    norm_cast

/-- What the parser makes of a literal that fits: bytes, and no others are named by it. -/
def IsLiteral (w : Written) (size : Nat) (bs : List (BitVec 8)) : Prop :=
  bs.length = size ∧ ∀ obs : List (BitVec 8), obs.length = size → (w.Names obs ↔ obs = bs)

theorem toBytesBig_literal {n : Int} (h : toBytesBig n size = some data) :
    ∃ bs, data = byteInts bs ∧ IsLiteral (.number n) size.toNat bs := by
  unfold toBytesBig at h
  split at h
  · rename_i hsize
    obtain ⟨-, hpos, hlt⟩ := hsize
    obtain ⟨k, rfl⟩ := Int.eq_ofNat_of_zero_le hpos
    have hk : k < 2 ^ (8 * size.toNat) := by
      rw [Nat.pow_mul]
      exact_mod_cast hlt
    obtain ⟨xs, hlen, rfl⟩ := exists_joinNat hk
    have hdata := digits_reverse xs
    rw [hlen] at hdata
    refine ⟨xs.reverse, (Option.some.inj h).symm.trans hdata, by rw [List.length_reverse, hlen], ?_⟩
    intro obs hobs
    constructor
    · intro heq
      have hjoin : joinNat obs.reverse = joinNat xs := Int.ofNat.inj heq
      have hsame := joinNat_inj (by rw [List.length_reverse, hobs, hlen]) hjoin
      rw [← hsame, List.reverse_reverse]
    · intro heq
      rw [heq, Written.Names, List.reverse_reverse]
  · cases h

/-- A list of components is the literal of its bytes. -/
theorem parts_literal {bytes : List Int} (hfit : (Written.parts bytes).Fits size.toNat) :
    ∃ bs, bytes = byteInts bs ∧ IsLiteral (.parts bytes) size.toNat bs := by
  obtain ⟨hlen, hbounds⟩ := hfit
  have hbytes : bytes = byteInts (bytes.map (BitVec.ofInt 8)) := by
    unfold byteInts
    rw [List.map_map]
    apply (List.map_id bytes).symm.trans
    apply List.map_congr_left
    intro b hb
    obtain ⟨hpos, hlt⟩ := hbounds b hb
    simp only [id_eq, Function.comp_apply, BitVec.toNat_ofInt]
    omega
  refine ⟨_, hbytes, by rw [List.length_map, hlen], fun obs _ => ?_⟩
  constructor
  · intro heq
    exact byteInts_inj (heq.trans hbytes)
  · intro heq
    rw [heq]
    exact hbytes.symm

theorem toInt_of_component {item : Json} {n : Int} (h : component item = some n) :
    item.toInt = some n := by
  unfold component at h
  split at h
  · rename_i q
    split at h
    · rename_i hden
      rw [Json.toInt, hden, ← h]
      simp
    · cases h
  · exact h

theorem mapM_component {items : List Json} {bytes : List Int} (h : items.mapM component = some bytes)
    (hbounds : ∀ b ∈ bytes, 0 ≤ b ∧ b < 256) :
    items.mapM (fun b => b.toInt.map (· % 256)) = some bytes := by
  induction items generalizing bytes with
  | nil => exact h
  | cons item items ih =>
      rw [List.mapM_cons] at h
      obtain ⟨n, hn, hrest⟩ := Option.bind_eq_some_iff.mp h
      obtain ⟨ns, hns, hcons⟩ := Option.bind_eq_some_iff.mp hrest
      obtain rfl := Option.some.inj hcons
      obtain ⟨hpos, hlt⟩ := hbounds n (by simp)
      rw [List.mapM_cons, toInt_of_component hn, ih hns fun b hb => hbounds b (by simp [hb])]
      simp only [Option.map_some, Int.emod_eq_of_lt hpos hlt]
      rfl

theorem ofSize_eq {bytes : List Int} (h : ofSize size bytes = some data) :
    bytes = data ∧ (bytes.length : Int) = size := by
  unfold ofSize at h
  split at h
  · rename_i hlen
    exact ⟨Option.some.inj h, hlen⟩
  · cases h

theorem parseStrBytes_literal {v : List Char} (h : parseStrBytes v size = some data) {w : Written}
    (hw : writtenText v = some w) (hfit : w.Fits size.toNat) :
    ∃ bs, data = byteInts bs ∧ IsLiteral w size.toNat bs := by
  have hparts : ∀ {read : List Char → Option Int} {sep : Char},
      ((v.splitOn sep).mapM read).bind (ofSize size) = some data →
      ((v.splitOn sep).mapM read).map Written.parts = some w →
      ∃ bs, data = byteInts bs ∧ IsLiteral w size.toNat bs := by
    intro read sep hdata hparts
    obtain ⟨bytes, hbytes, hsize⟩ := Option.bind_eq_some_iff.mp hdata
    rw [hbytes] at hparts
    obtain rfl := Option.some.inj hparts
    obtain ⟨rfl, -⟩ := ofSize_eq hsize
    exact parts_literal hfit
  have hnumber : ∀ {n : Option Int}, n.bind (toBytesBig · size) = some data →
      n.map Written.number = some w → ∃ bs, data = byteInts bs ∧ IsLiteral w size.toNat bs := by
    intro n hdata hn
    obtain ⟨k, rfl, hk⟩ := Option.bind_eq_some_iff.mp hdata
    obtain rfl := Option.some.inj hn
    exact toBytesBig_literal hk
  unfold parseStrBytes at h
  unfold writtenText at hw
  split at h
  · rename_i hhex
    rw [if_pos hhex] at hw
    exact hnumber h hw
  · rename_i hhex
    rw [if_neg hhex] at hw
    split at h
    · rename_i hdot
      rw [if_pos hdot] at hw
      exact hparts h hw
    · rename_i hdot
      rw [if_neg hdot] at hw
      split at h
      · rename_i hcolon
        rw [if_pos hcolon] at hw
        exact hparts h hw
      · rename_i hcolon
        rw [if_neg hcolon] at hw
        exact hnumber h hw

/-- What is read from a literal that fits. -/
theorem parseValBytes_literal {v : Json} (h : parseValBytes size v = some data) {w : Written}
    (hw : written v = some w) (hfit : w.Fits size.toNat) :
    ∃ bs, data = byteInts bs ∧ IsLiteral w size.toNat bs := by
  unfold parseValBytes at h
  unfold written at hw
  split at h
  · obtain rfl := Option.some.inj hw
    exact toBytesBig_literal h
  · rename_i items
    obtain ⟨bytes, hbytes, rfl⟩ := Option.map_eq_some_iff.mp hw
    split at h
    · rw [mapM_component hbytes hfit.2] at h
      obtain rfl := Option.some.inj h
      exact parts_literal hfit
    · cases h
  · exact parseStrBytes_literal h hw hfit
  · cases h

end Bytes

/-! ## Comparisons -/

/-- What an operator asks of an equality. -/
def EqOp.asks (p : Prop) : EqOp → Prop
  | .eq => p
  | .ne => ¬p

/-- What an operator asks of a value and a literal. -/
def RelOp.asks (v n : Int) : RelOp → Prop
  | .eq => v = n
  | .ne => v ≠ n
  | .lt => v < n
  | .le => v ≤ n
  | .gt => n < v
  | .ge => n ≤ v

section Observed

variable {maps : List MapInfo} {st : CondState maps} {m : ZModel}

variable (st m) in
/-- The bytes of a location in the state. -/
def Observed (loc : Loc) (size : Nat) (obs : List (BitVec 8)) : Prop :=
  ∃ cells, ((List.range size).mapM fun (i : Nat) =>
      st.readLoc { loc with off := loc.off + i, size := 1 }) = .ok cells ∧
    obs = cells.map (·.eval m)

theorem length_observed {loc : Loc} {size : Nat} {obs : List (BitVec 8)}
    (h : Observed st m loc size obs) : obs.length = size := by
  obtain ⟨cells, hcells, rfl⟩ := h
  rw [List.length_map, length_mapM_ok hcells, List.length_range]

theorem eval_eqOp {op : EqOp} {t : ZTerm .bool} {p : Prop} (h : t.eval m = true ↔ p) :
    (op.apply t).eval m = true ↔ op.asks p := by
  cases op with
  | eq => exact h
  | ne =>
      show (!t.eval m) = true ↔ ¬p
      rw [← h]
      simp

theorem eval_relOp {op : RelOp} {w : Nat} (v : ZTerm (.bv w)) {n : Int} (hpos : 0 ≤ n)
    (hlt : n < 2 ^ w) :
    (op.term v (bvVal n w)).eval m = true ↔ op.asks ((v.eval m).toNat : Int) n := by
  obtain ⟨k, rfl⟩ := Int.eq_ofNat_of_zero_le hpos
  have hk : k < 2 ^ w := by exact_mod_cast hlt
  have hval : (bvVal (k : Int) w).eval m = BitVec.ofNat w k := by
    rw [eval_bvVal, BitVec.ofInt_natCast]
  have hnat : (BitVec.ofNat w k).toNat = k := by
    rw [BitVec.toNat_ofNat, Nat.mod_eq_of_lt hk]
  have heq : v.eval m = BitVec.ofNat w k ↔ (v.eval m).toNat = k := by
    rw [← BitVec.toNat_inj, hnat]
  cases op <;> simp [RelOp.term, RelOp.asks, CmpOp.eval, hval, hnat, heq, BitVec.ult, BitVec.ule]

/-- The cells that are compared one by one. -/
theorem all_cells_eq (bs : List (BitVec 8)) (cells : List (ZTerm (.bv 8))) (k : Nat)
    (hlen : cells.length = bs.length) :
    (List.zipWith (fun (x : Nat × Nat) b => Term.cmp .eq b (bvVal x.1 8))
      ((bs.map BitVec.toNat).zipIdx k) cells).all (·.eval m) = true ↔
      cells.map (·.eval m) = bs := by
  induction bs generalizing cells k with
  | nil =>
      obtain rfl := List.length_eq_zero_iff.mp hlen
      simp
  | cons b bs ih =>
      obtain ⟨c, cells, rfl⟩ := List.exists_cons_of_length_eq_add_one hlen
      have hbyte : ((Term.cmp .eq c (bvVal (b.toNat : Int) 8)).eval m = true) ↔ c.eval m = b := by
        simp [CmpOp.eval, BitVec.ofInt_natCast]
      rw [List.map_cons, List.zipIdx_cons, List.zipWith_cons_cons, List.all_cons, Bool.and_eq_true,
        hbyte, ih _ _ (Nat.succ.inj hlen), List.map_cons, List.cons.injEq]

theorem toZ3_pkt {offset : Int} {bs : List (BitVec 8)} {op : EqOp} {t : ZTerm .bool}
    (h : (Atom.pkt offset (bs.map BitVec.toNat) op).toZ3 st = .ok t) :
    ∃ obs, Observed st m ⟨.PKT, offset, 1, none, none, none⟩ bs.length obs ∧
      (t.eval m = true ↔ op.asks (obs = bs)) := by
  unfold Atom.toZ3 at h
  obtain ⟨ts, hts, h⟩ := bind_eq_ok.mp h
  obtain rfl := Except.ok.inj h
  obtain ⟨cells, hcells, rfl⟩ := mapM_bind_pure hts
  have hread : ((List.range bs.length).mapM fun (i : Nat) =>
      st.readLoc ⟨.PKT, offset + i, 1, none, none, none⟩) = .ok cells := by
    have hidx : ((bs.map BitVec.toNat).zipIdx).map Prod.snd = List.range bs.length := by
      rw [List.zipIdx_map_snd, List.length_map, List.range_eq_range']
    rw [← hidx, List.mapM_map]
    exact hcells
  have hlen : cells.length = bs.length := by
    rw [length_mapM_ok hread, List.length_range]
  refine ⟨cells.map (·.eval m), ⟨cells, hread, rfl⟩, eval_eqOp ?_⟩
  rw [eval_andTerms]
  exact all_cells_eq bs cells 0 hlen

theorem cellsNat_bytes (cells : List (ZTerm (.bv 8))) :
    cellsNat m (cells.map fun c => ⟨8, c⟩) = joinNat (cells.map (·.eval m)) := by
  induction cells with
  | nil => rfl
  | cons c cells ih =>
      rw [List.map_cons, cellsNat, ih]
      rfl

theorem bytesEq_observed {loc : Loc} {size : Nat} {bs : List (BitVec 8)} (hbs : bs.length = size)
    {t : ZTerm .bool} (h : st.bytesEq loc size (joinNat bs) = .ok t) :
    ∃ obs, Observed st m loc size obs ∧ (t.eval m = true ↔ obs = bs) := by
  unfold CondState.bytesEq CondState.readBytes at h
  obtain ⟨read, hread, h⟩ := bind_eq_ok.mp h
  obtain ⟨got, hgot, h⟩ := bind_eq_ok.mp h
  obtain rfl := Except.ok.inj h
  obtain ⟨cells, hcells, hzip⟩ := mapM_bind_pure hread
  have hlen : cells.length = size := by rw [length_mapM_ok hcells, List.length_range]
  have hmap : read = cells.map fun c => ⟨8, c⟩ := by
    rw [hzip]
    apply List.ext_getElem
    · simp [hlen]
    · intro i hi hi'
      simp
  have hsize : got.size = 8 * size := by
    have hbytes : ∀ c ∈ read, c.size = 8 := by
      rw [hmap]
      intro c hc
      obtain ⟨b, -, rfl⟩ := List.mem_map.mp hc
      rfl
    rw [size_concatBytes hbytes hgot, hmap, List.length_map, hlen]
  have hvalue : got.toNat m = joinNat (cells.map (·.eval m)) := by
    rw [toNat_concatCells hgot, hmap, cellsNat_bytes]
  have hlit : joinNat bs < 2 ^ got.size := by
    rw [hsize, ← hbs]
    exact joinNat_lt bs
  refine ⟨cells.map (·.eval m), ⟨cells, hcells, rfl⟩, ?_⟩
  have hcmp : (Term.cmp .eq got.term (bvVal (joinNat bs : Int) got.size)).eval m = true ↔
      got.toNat m = joinNat bs := by
    show decide (got.term.eval m = BitVec.ofInt got.size (joinNat bs : Int)) = true ↔ _
    rw [decide_eq_true_iff, ← BitVec.toNat_inj, BitVec.ofInt_natCast, BitVec.toNat_ofNat,
      Nat.mod_eq_of_lt hlit]
    rfl
  rw [hcmp, hvalue]
  constructor
  · intro heq
    exact joinNat_inj (by rw [List.length_map, hlen, hbs]) heq
  · intro heq
    rw [heq]

end Observed

/-! ## Atoms -/

section Atoms

variable {maps : List MapInfo} (st : CondState maps) (m : ZModel)

/-- The literals of an atom, as it is written, fit what they are compared to. -/
def LiteralsFit (a : List (String × Json)) : SpecAtom → Prop
  | .pkt _ size _ _ | .bss _ _ size _ _ => FitsBytes size.toNat (Json.get a "value")
  | .map _ _ _ value keySize valueSize =>
      FitsBytes keySize (Json.get a "key") ∧
        (value.isSome → FitsBytes valueSize (Json.get a "value"))
  | .helperScalar _ _ _ _ value retval =>
      ∀ r, exprToZ3 st.reads st.block st.sigma retval = .ok r → 0 ≤ value ∧ value < 2 ^ r.size
  | .ret _ value => 0 ≤ value ∧ value < 2 ^ 64
  | _ => True

/-- The formula of bytes in memory: they are the literal, as the operator asks. -/
def BytesCompared (loc : Loc) (size : Nat) (value : Option Json) (op : EqOp) (t : ZTerm .bool) :
    Prop :=
  ∃ v w obs, value = some v ∧ written v = some w ∧ Observed st m loc size obs ∧
    (t.eval m = true ↔ op.asks (w.Names obs))

/-- The entry of a map that a written key names. -/
def NamedEntry (mapId keySize : Nat) (key : Option Json) (keyExpr : Expr) (hit : Guard) : Prop :=
  ∃ v w bs, key = some v ∧ written v = some w ∧ w.Names bs ∧ bs.length = keySize ∧
    keyExpr = .num (joinNat bs) keySize (-1) ∧
    Condition.toZ3 st.reads st.block st.sigma
      (.containMapValue (some mapId) (some keyExpr) none true) = .ok hit

/-- The formula of an atom says of the observed quantity what its literal says. -/
def ComparedExactly (a : List (String × Json)) (t : ZTerm .bool) : SpecAtom → Prop
  | .pkt offset size _ op =>
      BytesCompared st m ⟨.PKT, offset, 1, none, none, none⟩ size.toNat (Json.get a "value") op t
  | .bss sym offset size _ op =>
      BytesCompared st m ⟨.BSS, offset, 1, none, none, some sym⟩ size.toNat (Json.get a "value") op t
  | .map mapId _ present value keySize valueSize =>
      ∃ keyExpr hit, NamedEntry st mapId keySize (Json.get a "key") keyExpr hit ∧
        match value with
        | some _ => ∃ eq, BytesCompared st m ⟨.MAP, 0, 1, some mapId, some keyExpr, none⟩ valueSize
            (Json.get a "value") .eq eq ∧
            (t.eval m = true ↔ hit.eval m = true ∧ eq.eval m = true)
        | none => t.eval m = true ↔ (hit.eval m = true ↔ present = some true)
  | .helperScalar _ _ _ op _ retval =>
      ∃ n r, (Json.get a "value").bind parseInt = some n ∧
        exprToZ3 st.reads st.block st.sigma retval = .ok r ∧
        (t.eval m = true ↔ op.asks (r.toNat m) n)
  | .ret op _ =>
      ∃ n, (Json.get a "ret").bind parseInt = some n ∧
        (t.eval m = true ↔ op.asks (st.sigma.r0.eval m).toNat n)
  | _ => True

end Atoms

section Parsed

variable {defs : Option (List MapDef)} {calls : Option (Dict Int CallRecord)}
variable {blocks : Option (List Block)} {block : Option Int}
variable {a : List (String × Json)} {atom : SpecAtom}

/-- Which kind of atom was read. -/
theorem parseAtom_cases (h : parseAtom defs calls blocks block a = some atom) :
    parseHelperAtom calls a = some atom ∨ parseRetAtom block a = some atom ∨
      parseReadAtom defs blocks block a = some atom ∨
      ∃ op, parseBssAtom op a = some atom ∨ parseMapAtom defs a = some atom ∨
        parseLenAtom a = some atom ∨ parseCtxAtom a = some atom ∨ parsePktAtom op a = some atom := by
  unfold parseAtom at h
  split at h
  · exact .inl h
  split at h
  · exact .inr (.inl h)
  split at h
  · exact .inr (.inr (.inl h))
  obtain ⟨op, -, h⟩ := Option.bind_eq_some_iff.mp h
  refine .inr (.inr (.inr ⟨op, ?_⟩))
  split at h
  · exact .inl h
  split at h
  · exact .inr (.inl h)
  split at h
  · exact .inr (.inr (.inl h))
  split at h
  · exact .inr (.inr (.inr (.inl h)))
  · exact .inr (.inr (.inr (.inr h)))

section Exact

variable {maps : List MapInfo} {st : CondState maps} {m : ZModel} {numeral : Json → Option Int}
variable {t : ZTerm .bool}

theorem intOfBytes_byteInts (bs : List (BitVec 8)) : intOfBytes (byteInts bs) = joinNat bs := by
  induction bs with
  | nil => rfl
  | cons b bs ih =>
      show (b.toNat : Int).toNat + 256 * intOfBytes (byteInts bs) = _
      rw [ih, Int.toNat_natCast]
      rfl

/-- The number read from a literal that fits. -/
theorem parseMultibyteInt_literal {size : Int} {v : Json} {n : Nat}
    (h : parseMultibyteInt size v = some n) {w : Written} (hw : written v = some w)
    (hfit : w.Fits size.toNat) : ∃ bs, n = joinNat bs ∧ IsLiteral w size.toNat bs := by
  unfold parseMultibyteInt at h
  obtain ⟨data, hdata, h⟩ := Option.bind_eq_some_iff.mp h
  obtain ⟨bs, rfl, hbs⟩ := parseValBytes_literal hdata hw hfit
  split at h
  · obtain rfl := Option.some.inj h
    exact ⟨bs, intOfBytes_byteInts bs, hbs⟩
  · cases h

theorem ok_of_mapError {ε ε' α : Type} {f : ε → ε'} {x : Except ε α} {y : α}
    (h : x.mapError f = .ok y) : x = .ok y := by
  cases x with
  | error e => cases h
  | ok z => exact congrArg Except.ok (Except.ok.inj h)

theorem toZ3_of_toAtom {x : Atom} (hatom : atom.toAtom numeral = .ok x)
    (h : atom.toZ3 numeral st = .ok t) : x.toZ3 st = .ok t := by
  unfold SpecAtom.toZ3 at h
  rw [hatom] at h
  exact ok_of_mapError h

theorem eval_toTerm (g : Guard) : g.toTerm.eval m = g.eval m := by
  cases g <;> rfl

/-- Bytes are compared to the bytes of the literal. -/
theorem bytesCompared_of_literal {loc : Loc} {size : Nat} {v : Json} {w : Written}
    {bs : List (BitVec 8)} {op : EqOp} (hw : written v = some w) (hlit : IsLiteral w size bs)
    (h : ∃ obs, Observed st m loc size obs ∧ (t.eval m = true ↔ op.asks (obs = bs))) :
    BytesCompared st m loc size (some v) op t := by
  obtain ⟨obs, hobs, heval⟩ := h
  refine ⟨v, w, obs, rfl, hw, hobs, ?_⟩
  rw [heval, hlit.2 obs (length_observed hobs)]

theorem exact_pkt {op : EqOp} (h : parsePktAtom op a = some atom) (hfit : LiteralsFit st a atom)
    (ht : atom.toZ3 numeral st = .ok t) : ComparedExactly st m a t atom := by
  unfold parsePktAtom at h
  obtain ⟨⟨offset, size⟩, -, h⟩ := Option.bind_eq_some_iff.mp h
  obtain ⟨data, hdata, h⟩ := Option.bind_eq_some_iff.mp h
  obtain rfl := Option.some.inj h
  obtain ⟨v, w, hv, hw, hsize⟩ := hfit
  rw [hv] at hdata
  obtain ⟨bs, rfl, hlit⟩ := parseValBytes_literal hdata hw hsize
  have hbytes : (byteInts bs).map (fun b => (b % 256).toNat) = bs.map BitVec.toNat := by
    unfold byteInts
    rw [List.map_map]
    apply List.map_congr_left
    intro b _
    have hb : b.toNat < 256 := b.isLt
    simp only [Function.comp_apply]
    omega
  have hread := toZ3_pkt (m := m) (toZ3_of_toAtom (by rw [SpecAtom.toAtom, hbytes]; rfl) ht)
  rw [hlit.1] at hread
  show BytesCompared st m _ _ _ _ _
  rw [hv]
  exact bytesCompared_of_literal hw hlit hread

theorem exact_bss {op : EqOp} (h : parseBssAtom op a = some atom) (hfit : LiteralsFit st a atom)
    (ht : atom.toZ3 numeral st = .ok t) : ComparedExactly st m a t atom := by
  unfold parseBssAtom at h
  obtain ⟨sym, -, h⟩ := Option.bind_eq_some_iff.mp h
  obtain ⟨size, -, h⟩ := Option.bind_eq_some_iff.mp h
  obtain ⟨offset, -, h⟩ := Option.bind_eq_some_iff.mp h
  obtain ⟨n, hn, h⟩ := Option.bind_eq_some_iff.mp h
  split at h
  · cases h
  obtain rfl := Option.some.inj h
  obtain ⟨v, w, hv, hw, hsize⟩ := hfit
  rw [hv] at hn
  obtain ⟨bs, rfl, hlit⟩ := parseMultibyteInt_literal hn hw hsize
  have hatom := toZ3_of_toAtom (x := .bss sym offset size.toNat (joinNat bs) op) rfl ht
  unfold Atom.toZ3 at hatom
  obtain ⟨eq, heq, hatom⟩ := bind_eq_ok.mp hatom
  obtain rfl := Except.ok.inj hatom
  obtain ⟨obs, hobs, heval⟩ := bytesEq_observed (m := m) hlit.1 heq
  show BytesCompared st m _ _ _ _ _
  rw [hv]
  exact bytesCompared_of_literal hw hlit ⟨obs, hobs, eval_eqOp heval⟩

theorem exact_ret (h : parseRetAtom block a = some atom) (hfit : LiteralsFit st a atom)
    (ht : atom.toZ3 numeral st = .ok t) : ComparedExactly st m a t atom := by
  unfold parseRetAtom at h
  split at h
  · cases h
  obtain ⟨op, -, h⟩ := Option.bind_eq_some_iff.mp h
  obtain ⟨n, hn, h⟩ := Option.bind_eq_some_iff.mp h
  obtain rfl := Option.some.inj h
  have hatom := toZ3_of_toAtom (x := .ret op n) rfl ht
  obtain rfl := Except.ok.inj hatom
  exact ⟨n, hn, eval_relOp st.sigma.r0 hfit.1 hfit.2⟩

theorem exact_helper (h : parseHelperAtom calls a = some atom) (hfit : LiteralsFit st a atom)
    (ht : atom.toZ3 numeral st = .ok t) : ComparedExactly st m a t atom := by
  unfold parseHelperAtom at h
  obtain ⟨calls, -, h⟩ := Option.bind_eq_some_iff.mp h
  obtain ⟨idx, -, h⟩ := Option.bind_eq_some_iff.mp h
  obtain ⟨call, -, h⟩ := Option.bind_eq_some_iff.mp h
  obtain ⟨u, -, h⟩ := Option.bind_eq_some_iff.mp h
  split at h
  · cases h
  · obtain ⟨op, -, h⟩ := Option.bind_eq_some_iff.mp h
    obtain ⟨n, hn, h⟩ := Option.bind_eq_some_iff.mp h
    obtain rfl := Option.some.inj h
    have hatom := toZ3_of_toAtom (x := .helperScalar call.retval op n) rfl ht
    unfold Atom.toZ3 at hatom
    obtain ⟨r, hr, hatom⟩ := bind_eq_ok.mp hatom
    obtain rfl := Except.ok.inj hatom
    obtain ⟨hpos, hlt⟩ := hfit r hr
    exact ⟨n, r, hn, hr, eval_relOp r.term hpos hlt⟩
  · obtain ⟨result, -, h⟩ := Option.bind_eq_some_iff.mp h
    obtain rfl := Option.some.inj h
    exact trivial

/-- The literals of a map atom are read with the sizes of the map. -/
theorem mapAtom_parts {defs : Option (List MapDef)} (h : parseMapAtom defs a = some atom) :
    ∃ (d : MapDef) (key : Nat) (present : Option Bool) (value : Option Nat),
      atom = .map d.id key present value d.keySize d.valueSize ∧
      (Json.get a "key").bind (parseMultibyteInt d.keySize) = some key ∧
      ∀ n, value = some n → (Json.get a "value").bind (parseMultibyteInt d.valueSize) = some n := by
  unfold parseMapAtom at h
  obtain ⟨⟨d, key, value⟩, hparts, rfl⟩ := Option.map_eq_some_iff.mp h
  unfold mapAtomParts at hparts
  obtain ⟨d', -, hparts⟩ := Option.bind_eq_some_iff.mp hparts
  dsimp only at hparts
  split at hparts
  · cases hparts
  split at hparts
  · cases hparts
  obtain ⟨key', hkey, hparts⟩ := Option.bind_eq_some_iff.mp hparts
  obtain ⟨value', hvalue, hparts⟩ := Option.bind_eq_some_iff.mp hparts
  cases hparts
  refine ⟨d, key, _, value, rfl, hkey, ?_⟩
  rintro n rfl
  cases hgiven : given a "value" with
  | none =>
      rw [hgiven] at hvalue
      cases hvalue
  | some v =>
      rw [hgiven, Option.mapM_some] at hvalue
      have hget : Json.get a "value" = some v := (Option.filter_eq_some_iff.mp hgiven).1
      rw [hget]
      cases hread : parseMultibyteInt d.valueSize v with
      | none =>
          rw [hread] at hvalue
          cases hvalue
      | some k =>
          rw [hread] at hvalue
          exact hread.trans (Option.some.inj hvalue)

theorem exact_map {defs : Option (List MapDef)} (h : parseMapAtom defs a = some atom)
    (hfit : LiteralsFit st a atom) (ht : atom.toZ3 numeral st = .ok t) :
    ComparedExactly st m a t atom := by
  obtain ⟨d, key, present, value, rfl, hkey, hvalue⟩ := mapAtom_parts h
  obtain ⟨⟨v, w, hv, hw, hsize⟩, hfitValue⟩ := hfit
  rw [hv] at hkey
  obtain ⟨bs, rfl, hlit⟩ := parseMultibyteInt_literal hkey hw hsize
  have hatom : (Atom.map d.id (joinNat bs) present (value.map Int.ofNat) d.keySize d.valueSize).toZ3
      st = .ok t := by
    by_cases hzero : d.keySize = 0
    · have hrefused : (SpecAtom.map d.id (joinNat bs) present value d.keySize d.valueSize).toAtom
          numeral = .error .solver := by
        rw [SpecAtom.toAtom, if_pos hzero]
        rfl
      unfold SpecAtom.toZ3 at ht
      rw [hrefused] at ht
      cases ht
    · exact toZ3_of_toAtom (by rw [SpecAtom.toAtom, if_neg hzero]; rfl) ht
  unfold Atom.toZ3 at hatom
  obtain ⟨hit, hhit, hatom⟩ := bind_eq_ok.mp hatom
  refine ⟨_, hit, ⟨v, w, bs, hv, hw, (hlit.2 bs hlit.1).mpr rfl, hlit.1, rfl, hhit⟩, ?_⟩
  cases value with
  | none =>
      obtain rfl := Except.ok.inj hatom
      by_cases hpresent : present = some true
      · rw [if_pos hpresent, eval_toTerm]
        simp [hpresent]
      · rw [if_neg hpresent, Term.eval_not, eval_toTerm]
        simp [hpresent]
  | some n =>
      obtain ⟨eq, heq, hatom⟩ := bind_eq_ok.mp hatom
      obtain rfl := Except.ok.inj hatom
      obtain ⟨v', w', hv', hw', hsize'⟩ := hfitValue rfl
      have hread := hvalue n rfl
      rw [hv'] at hread
      obtain ⟨bs', rfl, hlit'⟩ := parseMultibyteInt_literal hread hw' hsize'
      refine ⟨eq, ?_, ?_⟩
      · rw [hv']
        exact bytesCompared_of_literal hw' hlit' (bytesEq_observed hlit'.1 heq)
      · rw [Term.eval_and, Bool.and_eq_true, eval_toTerm]

end Exact

theorem read_of_parse (h : parseReadAtom defs blocks block a = some atom) :
    ∃ parts op target size region offset mapId,
      atom = .read parts op target size region offset mapId := by
  unfold parseReadAtom at h
  obtain ⟨sources, -, h⟩ := Option.bind_eq_some_iff.mp h
  obtain ⟨op, -, h⟩ := Option.bind_eq_some_iff.mp h
  obtain ⟨place, -, h⟩ := Option.bind_eq_some_iff.mp h
  obtain ⟨parts, -, h⟩ := Option.bind_eq_some_iff.mp h
  obtain ⟨target, -, h⟩ := Option.bind_eq_some_iff.mp h
  exact ⟨_, _, _, _, _, _, _, (Option.some.inj h).symm⟩

theorem scalar_of_parse (h : parseCtxAtom a = some atom) :
    ∃ target value, atom = .scalar target value := by
  unfold parseCtxAtom at h
  obtain ⟨target, -, h⟩ := Option.bind_eq_some_iff.mp h
  obtain ⟨value, -, h⟩ := Option.bind_eq_some_iff.mp h
  exact ⟨target, value, (Option.some.inj h).symm⟩

/-- An accepted atom is compared to what it says exactly when its literals fit: a component
that does not fit is accepted too, and cut down. -/
theorem literals_exact_iff {maps : List MapInfo} (numeral : Json → Option Int)
    (st : CondState maps) (h : parseAtom defs calls blocks block a = some atom) :
    (LiteralsFit st a atom ∧
      ∀ t, atom.toZ3 numeral st = .ok t → ∀ m, ComparedExactly st m a t atom) ↔
      LiteralsFit st a atom := by
  refine ⟨And.left, fun hfit => ⟨hfit, fun t ht m => ?_⟩⟩
  rcases parseAtom_cases h with h | h | h | ⟨op, h | h | h | h | h⟩
  · exact exact_helper h hfit ht
  · exact exact_ret h hfit ht
  · obtain ⟨parts, op, target, size, region, offset, mapId, rfl⟩ := read_of_parse h
    exact trivial
  · exact exact_bss h hfit ht
  · exact exact_map h hfit ht
  · obtain ⟨r, -, rfl⟩ := Option.map_eq_some_iff.mp h
    exact trivial
  · obtain ⟨target, value, rfl⟩ := scalar_of_parse h
    exact trivial
  · exact exact_pkt h hfit ht

end Parsed

/-- A state in which every byte of memory is `b`. -/
def everyByte (b : BitVec 8) : CondState [] :=
  { bareExit with readLoc := fun _ => .ok (.const b) }

/-- `{"field": "ip_proto", "value": 17}`, of a packet whose protocol is 17. -/
theorem literals_exact_iff_field : ∃ atom t,
    parseAtom none none none none [("field", .str "ip_proto"), ("value", .int 17)] = some atom ∧
    atom.toZ3 (fun _ => none) (everyByte 17#8) = .ok t ∧
    ComparedExactly (everyByte 17#8) (Model.ofNats fun _ => none)
      [("field", .str "ip_proto"), ("value", .int 17)] t atom := by
  have hparse : parseAtom none none none none [("field", .str "ip_proto"), ("value", .int 17)] =
      some (.pkt 23 1 [17] .eq) := rfl
  have hfits : LiteralsFit (everyByte 17#8) [("field", .str "ip_proto"), ("value", .int 17)]
      (.pkt 23 1 [17] .eq) := ⟨.int 17, .number 17, rfl, rfl, by decide, by decide⟩
  have hexact := (literals_exact_iff (fun _ => none) (everyByte 17#8) hparse).mpr hfits
  exact ⟨_, _, hparse, rfl, hexact.2 _ rfl _⟩

/-- `{"offset": 14, "size": 1, "value": [300]}` holds where the byte is 44. -/
theorem literals_exact_violated : ∃ atom t,
    parseAtom none none none none
      [("offset", .int 14), ("size", .int 1), ("value", .arr [.int 300])] = some atom ∧
    atom.toZ3 (fun _ => none) (everyByte 44#8) = .ok t ∧
    ¬ ComparedExactly (everyByte 44#8) (Model.ofNats fun _ => none)
      [("offset", .int 14), ("size", .int 1), ("value", .arr [.int 300])] t atom := by
  refine ⟨.pkt 14 1 [44] .eq, _, rfl, rfl, ?_⟩
  rintro ⟨v, w, obs, hv, hw, -, heval⟩
  obtain rfl := Option.some.inj hv
  obtain rfl := Option.some.inj hw
  have hnames : byteInts obs = [300] := heval.mp rfl
  have hbounds := byteInts_bounds obs 300 (by rw [hnames]; simp)
  omega

end Hornet
