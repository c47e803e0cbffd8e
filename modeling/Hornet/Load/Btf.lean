import Hornet.Load.Object

/-!
The type table of a `.BTF` section. The records of the kernel's format are laid out one
behind the other, each with a trailer whose length depends on its kind; the decoder skips
from record to record, and the size of a type is found along the types it refers to.
-/

namespace Hornet

inductive BtfError where
  | truncated
  | magic (n : Nat)
  | unterminated (off : Nat)
  | notUtf8 (off : Nat)
  deriving DecidableEq, Repr

/-! ## The decoder -/

/-- The number of bytes that follow a record of that kind. -/
def extraLength (kind vlen : Nat) : Nat :=
  match [(1, 4), (3, 12), (14, 4), (17, 4)].lookup kind with
  | some n => n
  | none => ([(4, 12), (5, 12), (6, 8), (13, 8), (15, 12), (19, 12)].lookup kind).getD 0 * vlen

section Decoder

variable (data : List UInt8)

/-- The number that `n` bytes hold, lowest first. -/
def unpackAt (pos n : Nat) : Except BtfError Nat :=
  if pos + n ≤ data.length then pure (bytesNat ((data.drop pos).take n)) else throw .truncated

/-- The text up to the next zero byte. -/
def getStr (pos : Nat) : Except BtfError String :=
  let tail := data.drop pos
  if 0 ∈ tail then
    match String.fromUTF8? ⟨(tail.takeWhile (· ≠ 0)).toArray⟩ with
    | some s => pure s
    | none => throw (.notUtf8 pos)
  else throw (.unterminated pos)

/-- The words of four bytes that a trailer consists of. -/
def wordsOf : List UInt8 → Except BtfError (List Nat)
  | [] => pure []
  | a :: b :: c :: d :: rest => do
      let ws ← wordsOf rest
      pure (bytesNat [a, b, c, d] :: ws)
  | _ => throw .truncated

def triplesOf : List Nat → Except BtfError (List (Nat × Nat × Nat))
  | [] => pure []
  | a :: b :: c :: rest => do
      let ts ← triplesOf rest
      pure ((a, b, c) :: ts)
  | _ => throw .truncated

/-- What the trailer of a record holds, for the kinds whose trailer is used. -/
def parseExtra (strBase kind : Nat) (blob : List UInt8) : Except BtfError BtfExtra :=
  if kind = 1 then do
    match ← wordsOf blob with
    | [encoding] => pure (.int encoding)
    | _ => throw .truncated
  else if kind = 3 then do
    match ← wordsOf blob with
    | [elemType, indexType, nelems] => pure (.array elemType indexType nelems)
    | _ => throw .truncated
  else if kind = 4 ∨ kind = 5 then do
    let words ← wordsOf blob
    let triples ← triplesOf words
    let ms ← triples.mapM fun (o, t, off) => do
      let name ← getStr data (strBase + o)
      pure { name := name, type := t, offset := off }
    pure (.members ms)
  else if kind = 14 then do
    match ← wordsOf blob with
    | [linkage] => pure (.linkage linkage)
    | _ => throw .truncated
  else if kind = 15 then do
    let words ← wordsOf blob
    let triples ← triplesOf words
    pure (.secinfos (triples.map fun (t, o, s) => { type := t, offset := o, size := s }))
  else pure .none

/-- The record at `pos`, and where the next one starts. -/
def parseType (strBase pos : Nat) : Except BtfError (BtfType × Nat) := do
  let nameOff ← unpackAt data pos 4
  let info ← unpackAt data (pos + 4) 4
  let sizeOrType ← unpackAt data (pos + 8) 4
  let vlen := info % 2 ^ 16
  let kind := info / 2 ^ 24 % 2 ^ 5
  let n := extraLength kind vlen
  let extra ← parseExtra data strBase kind ((data.drop (pos + 12)).take n)
  let name ← getStr data (strBase + nameOff)
  pure ({ name := name, kind := kind, vlen := vlen, kindFlag := info / 2 ^ 31 % 2
          sizeOrType := sizeOrType, extra := extra }, pos + 12 + n)

/-- The records up to `typeEnd`. Each has at least twelve bytes, so `typeEnd - pos` is fuel
enough. -/
def parseTypes (strBase typeEnd : Nat) : Nat → Nat → Except BtfError (List BtfType)
  | 0, _ => pure []
  | fuel + 1, pos =>
      if pos < typeEnd then do
        let (t, next) ← parseType data strBase pos
        let ts ← parseTypes strBase typeEnd fuel next
        pure (t :: ts)
      else pure []

/-- The entry of type id `n + 1` is at index `n`: the id zero has none. -/
def parseBtf : Except BtfError (List BtfType) := do
  if data.length < 24 then throw .truncated
  else
    let magic ← unpackAt data 0 2
    let hdrLen ← unpackAt data 4 4
    let typeOff ← unpackAt data 8 4
    let typeLen ← unpackAt data 12 4
    let strOff ← unpackAt data 16 4
    if magic ≠ 0xEB9F then throw (.magic magic)
    else parseTypes data (hdrLen + strOff) (hdrLen + typeOff + typeLen) typeLen (hdrLen + typeOff)

end Decoder

/-! ## The format -/

/-- A member of a struct or a union. -/
structure BtfField where
  name : String
  nameOff : UInt32
  type : UInt32
  offset : UInt32

/-- The kinds of the kernel, each with its trailer. -/
inductive BtfBody where
  | int (encoding : UInt32)
  | ptr
  | array (elemType indexType nelems : UInt32)
  | struct (members : List BtfField)
  | union (members : List BtfField)
  | enum (values : List (UInt32 × UInt32))
  | fwd
  | typedef
  | volatile
  | const
  | restrict
  | func
  | funcProto (params : List (UInt32 × UInt32))
  | var (linkage : UInt32)
  | datasec (entries : List (UInt32 × UInt32 × UInt32))
  | float
  | declTag (component : UInt32)
  | typeTag
  | enum64 (values : List (UInt32 × UInt32 × UInt32))

namespace BtfBody

def kind : BtfBody → Nat
  | .int _ => 1
  | .ptr => 2
  | .array .. => 3
  | .struct _ => 4
  | .union _ => 5
  | .enum _ => 6
  | .fwd => 7
  | .typedef => 8
  | .volatile => 9
  | .const => 10
  | .restrict => 11
  | .func => 12
  | .funcProto _ => 13
  | .var _ => 14
  | .datasec _ => 15
  | .float => 16
  | .declTag _ => 17
  | .typeTag => 18
  | .enum64 _ => 19

/-- The number of entries of a trailer that has as many as the record says. -/
def count : BtfBody → Option Nat
  | .struct ms | .union ms => some ms.length
  | .enum vs | .funcProto vs => some vs.length
  | .datasec vs | .enum64 vs => some vs.length
  | _ => none

/-- The words of the trailer. -/
def words : BtfBody → List UInt32
  | .int encoding => [encoding]
  | .array elemType indexType nelems => [elemType, indexType, nelems]
  | .struct ms | .union ms => ms.flatMap fun m => [m.nameOff, m.type, m.offset]
  | .enum vs | .funcProto vs => vs.flatMap fun v => [v.1, v.2]
  | .var linkage => [linkage]
  | .datasec vs | .enum64 vs => vs.flatMap fun v => [v.1, v.2.1, v.2.2]
  | .declTag component => [component]
  | _ => []

def fields : BtfBody → List BtfField
  | .struct ms | .union ms => ms
  | _ => []

/-- What the table says of the trailer. -/
def extra : BtfBody → BtfExtra
  | .int encoding => .int encoding.toNat
  | .array elemType indexType nelems => .array elemType.toNat indexType.toNat nelems.toNat
  | .struct ms | .union ms => .members (ms.map fun m =>
      { name := m.name, type := m.type.toNat, offset := m.offset.toNat })
  | .var linkage => .linkage linkage.toNat
  | .datasec vs => .secinfos (vs.map fun v =>
      { type := v.1.toNat, offset := v.2.1.toNat, size := v.2.2.toNat })
  | _ => .none

end BtfBody

/-- A record. The length of a trailer of entries is that of the record. -/
structure BtfRecord where
  name : String
  nameOff : UInt32
  kindFlag : Bool
  vlen : UInt16
  sizeOrType : UInt32
  body : BtfBody
  counted : ∀ n, body.count = some n → vlen.toNat = n

/-- The entry that the table has for a record. -/
def BtfRecord.toType (r : BtfRecord) : BtfType :=
  { name := r.name, kind := r.body.kind, vlen := r.vlen.toNat, kindFlag := r.kindFlag.toNat
    sizeOrType := r.sizeOrType.toNat, extra := r.body.extra }

/-- The bytes of a number, lowest first. -/
def leBytes : Nat → Nat → List UInt8
  | 0, _ => []
  | k + 1, n => UInt8.ofNat n :: leBytes k (n / 256)

def BtfRecord.info (r : BtfRecord) : Nat :=
  r.vlen.toNat + 2 ^ 24 * r.body.kind + 2 ^ 31 * r.kindFlag.toNat

def BtfRecord.encode (r : BtfRecord) : List UInt8 :=
  leBytes 4 r.nameOff.toNat ++ leBytes 4 r.info ++ leBytes 4 r.sizeOrType.toNat ++
    r.body.words.flatMap fun w => leBytes 4 w.toNat

/-- The bytes of a string. -/
def utf8 (s : String) : List UInt8 := s.toByteArray.data.toList

/-- The string stands in the table, with a zero byte behind it. -/
def NameAt (strings : List UInt8) (off : UInt32) (s : String) : Prop :=
  0 ∉ utf8 s ∧ utf8 s ++ [0] <+: strings.drop off.toNat

/-- The names of a record stand in the string table. -/
structure BtfRecord.Named (strings : List UInt8) (r : BtfRecord) : Prop where
  name : NameAt strings r.nameOff r.name
  fields : ∀ m ∈ r.body.fields, NameAt strings m.nameOff m.name

/-- The types and the strings of a section, whose lengths fit the header. -/
structure BtfTable where
  records : List BtfRecord
  strings : List UInt8
  named : ∀ r ∈ records, r.Named strings
  fits : (records.flatMap BtfRecord.encode).length < 2 ^ 32 ∧ strings.length < 2 ^ 32

/-- The section: the header, the records and the strings. -/
def BtfTable.encode (t : BtfTable) : List UInt8 :=
  let types := t.records.flatMap BtfRecord.encode
  leBytes 2 0xEB9F ++ [1, 0] ++ leBytes 4 24 ++ leBytes 4 0 ++ leBytes 4 types.length ++
    leBytes 4 types.length ++ leBytes 4 t.strings.length ++ types ++ t.strings

/-! ## Reading what was laid out -/

/-- The bytes stand in the data from `pos` on. -/
def StandsAt (data : List UInt8) (pos : Nat) (bytes : List UInt8) : Prop := bytes <+: data.drop pos

section Layout

variable {data bytes more : List UInt8} {pos off : Nat}

theorem StandsAt.left (h : StandsAt data pos (bytes ++ more)) : StandsAt data pos bytes :=
  (List.prefix_append _ _).trans h

theorem StandsAt.right (h : StandsAt data pos (bytes ++ more)) :
    StandsAt data (pos + bytes.length) more := by
  have hdrop := List.IsPrefix.drop h bytes.length
  rw [List.drop_left, List.drop_drop] at hdrop
  exact hdrop

theorem StandsAt.within (h : StandsAt data pos bytes) (hmore : StandsAt bytes off more) :
    StandsAt data (pos + off) more := by
  have hdrop := List.IsPrefix.drop h off
  rw [List.drop_drop] at hdrop
  exact hmore.trans hdrop

theorem StandsAt.length_le (h : StandsAt data pos bytes) (hne : bytes ≠ []) :
    pos + bytes.length ≤ data.length := by
  have hle := List.IsPrefix.length_le h
  have hpos := List.length_pos_iff.mpr hne
  rw [List.length_drop] at hle
  omega

theorem StandsAt.take (h : StandsAt data pos bytes) :
    (data.drop pos).take bytes.length = bytes := (List.prefix_iff_eq_take.mp h).symm

theorem length_leBytes (k n : Nat) : (leBytes k n).length = k := by
  induction k generalizing n with
  | zero => rfl
  | succ k ih => rw [leBytes, List.length_cons, ih]

theorem bytesNat_leBytes (k n : Nat) : bytesNat (leBytes k n) = n % 256 ^ k := by
  induction k generalizing n with
  | zero => rw [leBytes, bytesNat, Nat.pow_zero, Nat.mod_one]
  | succ k ih =>
      have hsplit : n % 256 ^ (k + 1) = n % 256 + 256 * (n / 256 % 256 ^ k) := by
        rw [Nat.pow_succ', Nat.mod_mul]
      have hlow : (UInt8.ofNat n).toNat = n % 256 := UInt8.toNat_ofNat'
      rw [leBytes, bytesNat, ih, hlow, hsplit]

theorem unpackAt_leBytes {k n : Nat} (hk : 0 < k) (h : StandsAt data pos (leBytes k n))
    (hn : n < 256 ^ k) : unpackAt data pos k = .ok n := by
  have hne : leBytes k n ≠ [] := by
    intro hnil
    have hlen := length_leBytes k n
    rw [hnil] at hlen
    simp at hlen
    omega
  have hle := h.length_le hne
  have htake := h.take
  rw [length_leBytes] at hle htake
  unfold unpackAt
  rw [if_pos hle, htake, bytesNat_leBytes, Nat.mod_eq_of_lt hn]
  rfl

theorem unpackAt_word {w : UInt32} (h : StandsAt data pos (leBytes 4 w.toNat)) :
    unpackAt data pos 4 = .ok w.toNat :=
  unpackAt_leBytes (by decide) h w.toNat_lt

theorem wordsOf_cons (w : UInt32) (rest : List UInt8) :
    wordsOf (leBytes 4 w.toNat ++ rest) = (wordsOf rest).map (w.toNat :: ·) := by
  have hword : bytesNat (leBytes 4 w.toNat) = w.toNat := by
    rw [bytesNat_leBytes]
    exact Nat.mod_eq_of_lt w.toNat_lt
  have hread : wordsOf (leBytes 4 w.toNat ++ rest) =
      (wordsOf rest).map (bytesNat (leBytes 4 w.toNat) :: ·) := by
    simp only [leBytes, List.cons_append, List.nil_append, wordsOf]
    cases wordsOf rest <;> rfl
  rw [hread, hword]

theorem wordsOf_flatMap (ws : List UInt32) :
    wordsOf (ws.flatMap fun w => leBytes 4 w.toNat) = .ok (ws.map UInt32.toNat) := by
  induction ws with
  | nil => rfl
  | cons w ws ih =>
      rw [List.flatMap_cons, wordsOf_cons, ih]
      rfl

theorem triplesOf_flatMap {α : Type} (f : α → UInt32 × UInt32 × UInt32) (xs : List α) :
    triplesOf ((xs.flatMap fun x => [(f x).1, (f x).2.1, (f x).2.2]).map UInt32.toNat) =
      .ok (xs.map fun x => ((f x).1.toNat, (f x).2.1.toNat, (f x).2.2.toNat)) := by
  induction xs with
  | nil => rfl
  | cons x xs ih =>
      rw [List.flatMap_cons, List.map_append, List.map_cons]
      simp only [List.map_cons, List.map_nil, List.cons_append, List.nil_append, triplesOf]
      rw [ih]
      rfl

theorem getStr_name {s : String} (hzero : 0 ∉ utf8 s) (h : StandsAt data pos (utf8 s ++ [0])) :
    getStr data pos = .ok s := by
  obtain ⟨rest, hrest⟩ := h
  have hkeep : ∀ b ∈ utf8 s, decide (b ≠ 0) = true := by
    intro b hb
    apply decide_eq_true
    rintro rfl
    exact hzero hb
  have htext : (data.drop pos).takeWhile (· ≠ 0) = utf8 s := by
    rw [← hrest, List.append_assoc, List.takeWhile_append_of_pos hkeep, List.cons_append,
      List.takeWhile_cons_of_neg (by simp), List.append_nil]
  have hutf8 : String.fromUTF8? ⟨(utf8 s).toArray⟩ = some s := by
    have hvalid : (⟨(utf8 s).toArray⟩ : ByteArray) = s.toByteArray := rfl
    unfold String.fromUTF8?
    rw [dif_pos (hvalid ▸ s.isValidUTF8)]
    rfl
  unfold getStr
  dsimp only
  rw [if_pos (by rw [← hrest]; simp), htext, hutf8]
  rfl

theorem length_flatMap_const {α β : Type} {f : α → List β} {k : Nat} (h : ∀ x, (f x).length = k)
    (xs : List α) : (xs.flatMap f).length = k * xs.length := by
  induction xs with
  | nil => rfl
  | cons x xs ih => rw [List.flatMap_cons, List.length_append, h, ih, List.length_cons,
      Nat.mul_succ, Nat.add_comm]

theorem length_words (ws : List UInt32) :
    (ws.flatMap fun w => leBytes 4 w.toNat).length = 4 * ws.length :=
  length_flatMap_const (fun w => length_leBytes 4 w.toNat) ws

/-- The decoder skips the trailer of every kind. -/
theorem extraLength_body (r : BtfRecord) :
    extraLength r.body.kind r.vlen.toNat = 4 * r.body.words.length := by
  have hcounted := r.counted
  cases hbody : r.body <;> rw [hbody] at hcounted
  case struct ms | union ms =>
    have hlen : (ms.flatMap fun m => [m.nameOff, m.type, m.offset]).length = 3 * ms.length :=
      length_flatMap_const (by intro _; rfl) ms
    rw [hcounted _ rfl, BtfBody.words, hlen, ← Nat.mul_assoc]
    rfl
  case enum vs | funcProto vs =>
    have hlen : (vs.flatMap fun v => [v.1, v.2]).length = 2 * vs.length :=
      length_flatMap_const (by intro _; rfl) vs
    rw [hcounted _ rfl, BtfBody.words, hlen, ← Nat.mul_assoc]
    rfl
  case datasec vs | enum64 vs =>
    have hlen : (vs.flatMap fun v => [v.1, v.2.1, v.2.2]).length = 3 * vs.length :=
      length_flatMap_const (by intro _; rfl) vs
    rw [hcounted _ rfl, BtfBody.words, hlen, ← Nat.mul_assoc]
    rfl
  all_goals simp [extraLength, BtfBody.kind, BtfBody.words, List.lookup_cons]

end Layout

section Records

variable {data strings : List UInt8} {strBase pos : Nat}

theorem getStr_named (hstrings : StandsAt data strBase strings) {off : UInt32} {s : String}
    (h : NameAt strings off s) : getStr data (strBase + off.toNat) = .ok s :=
  getStr_name h.1 (hstrings.within h.2)

theorem mapM_fields (hstrings : StandsAt data strBase strings) {ms : List BtfField}
    (h : ∀ m ∈ ms, NameAt strings m.nameOff m.name) :
    (ms.map fun m => (m.nameOff.toNat, m.type.toNat, m.offset.toNat)).mapM (fun (o, t, off) => do
      let name ← getStr data (strBase + o)
      pure ({ name := name, type := t, offset := off } : BtfMember)) =
    .ok (ms.map fun m => { name := m.name, type := m.type.toNat, offset := m.offset.toNat }) := by
  induction ms with
  | nil => rfl
  | cons m ms ih =>
      have hname := getStr_named hstrings (h m (by simp))
      rw [List.map_cons, List.mapM_cons, ih fun m' hm' => h m' (by simp [hm'])]
      dsimp only
      rw [hname]
      rfl

/-- The trailer of a record is read as it was written. -/
theorem parseExtra_body (hstrings : StandsAt data strBase strings) {b : BtfBody}
    (h : ∀ m ∈ b.fields, NameAt strings m.nameOff m.name) :
    parseExtra data strBase b.kind (b.words.flatMap fun w => leBytes 4 w.toNat) = .ok b.extra := by
  unfold parseExtra
  rw [wordsOf_flatMap]
  cases b with
  | struct ms | union ms =>
      have htriples : triplesOf ((ms.flatMap fun m => [m.nameOff, m.type, m.offset]).map
          UInt32.toNat) = .ok (ms.map fun m => (m.nameOff.toNat, m.type.toNat, m.offset.toNat)) :=
        triplesOf_flatMap (fun m : BtfField => (m.nameOff, m.type, m.offset)) ms
      have hmembers := mapM_fields hstrings h
      simp only [BtfBody.fields] at hmembers
      simp only [BtfBody.kind, BtfBody.words, Nat.reduceEqDiff, if_false, if_true, or_true, true_or]
      exact Lib.bind_eq_ok.mpr ⟨_, rfl, Lib.bind_eq_ok.mpr ⟨_, htriples,
        Lib.bind_eq_ok.mpr ⟨_, hmembers, rfl⟩⟩⟩
  | datasec vs =>
      have htriples : triplesOf ((vs.flatMap fun v => [v.1, v.2.1, v.2.2]).map UInt32.toNat) =
          .ok (vs.map fun v => (v.1.toNat, v.2.1.toNat, v.2.2.toNat)) :=
        triplesOf_flatMap (fun v : UInt32 × UInt32 × UInt32 => v) vs
      simp only [BtfBody.kind, BtfBody.words, BtfBody.extra, Nat.reduceEqDiff, if_false, if_true,
        or_self]
      refine Lib.bind_eq_ok.mpr ⟨_, rfl, Lib.bind_eq_ok.mpr ⟨_, htriples, ?_⟩⟩
      rw [List.map_map]
      rfl
  | _ => rfl

theorem info_fields (r : BtfRecord) : r.info < 2 ^ 32 ∧ r.info % 2 ^ 16 = r.vlen.toNat ∧
    r.info / 2 ^ 24 % 2 ^ 5 = r.body.kind ∧ r.info / 2 ^ 31 % 2 = r.kindFlag.toNat := by
  have hvlen := r.vlen.toNat_lt
  have hkind : r.body.kind < 2 ^ 5 := by cases r.body <;> simp [BtfBody.kind]
  have hflag : r.kindFlag.toNat < 2 := by cases r.kindFlag <;> decide
  unfold BtfRecord.info
  omega

/-- A record that was laid out at `pos` is read, and the decoder goes on behind it. -/
theorem parseType_record (hstrings : StandsAt data strBase strings) {r : BtfRecord}
    (hnamed : r.Named strings) (h : StandsAt data pos r.encode) :
    parseType data strBase pos = .ok (r.toType, pos + r.encode.length) := by
  obtain ⟨hinfo, hvlen, hkind, hflag⟩ := info_fields r
  unfold BtfRecord.encode at h
  have hwords := h.right
  have hsize := h.left.right
  have hinfoAt := h.left.left.right
  have hname := h.left.left.left
  simp only [List.length_append, length_leBytes] at hwords hsize hinfoAt
  have hblob : (data.drop (pos + 12)).take (extraLength r.body.kind r.vlen.toNat) =
      r.body.words.flatMap fun w => leBytes 4 w.toNat := by
    rw [extraLength_body, ← length_words]
    exact hwords.take
  have hlen : r.encode.length = 12 + extraLength r.body.kind r.vlen.toNat := by
    unfold BtfRecord.encode
    rw [List.length_append, length_words, extraLength_body]
    simp [length_leBytes]
  unfold parseType
  rw [unpackAt_word hname, unpackAt_leBytes (by decide) hinfoAt hinfo, unpackAt_word hsize]
  dsimp only [bind, Except.bind]
  rw [hvlen, hkind, hflag, hblob, parseExtra_body hstrings hnamed.fields]
  dsimp only
  rw [getStr_named hstrings hnamed.name, hlen, Nat.add_assoc]
  rfl

theorem parseTypes_records (hstrings : StandsAt data strBase strings) {rs : List BtfRecord}
    (hnamed : ∀ r ∈ rs, r.Named strings) {fuel : Nat}
    (h : StandsAt data pos (rs.flatMap BtfRecord.encode)) {typeEnd : Nat}
    (hend : typeEnd = pos + (rs.flatMap BtfRecord.encode).length)
    (hfuel : (rs.flatMap BtfRecord.encode).length ≤ fuel) :
    parseTypes data strBase typeEnd fuel pos = .ok (rs.map BtfRecord.toType) := by
  induction rs generalizing pos fuel with
  | nil =>
      cases fuel with
      | zero => rfl
      | succ fuel =>
          rw [parseTypes, if_neg (by simp at hend; omega)]
          rfl
  | cons r rs ih =>
      rw [List.flatMap_cons] at h hend hfuel
      have hpos : 0 < r.encode.length := by
        unfold BtfRecord.encode
        simp only [List.length_append, length_leBytes]
        omega
      rw [List.length_append] at hend hfuel
      obtain ⟨fuel, rfl⟩ : ∃ n, fuel = n + 1 := ⟨fuel - 1, by omega⟩
      have hrest := ih (fun r' hr' => hnamed r' (by simp [hr'])) h.right (by omega)
        (show (rs.flatMap BtfRecord.encode).length ≤ fuel by omega)
      rw [parseTypes, if_pos (by omega), parseType_record hstrings (hnamed r (by simp)) h.left]
      dsimp only [bind, Except.bind]
      rw [hrest]
      rfl

/-- A section that was laid out is read as its records. -/
theorem parseBtf_encode (t : BtfTable) :
    parseBtf t.encode = .ok (t.records.map BtfRecord.toType) := by
  obtain ⟨data, hdata⟩ : ∃ data, data = t.encode := ⟨_, rfl⟩
  have hall : StandsAt data 0 t.encode := by
    rw [hdata]
    exact List.prefix_refl _
  have hlen : 24 ≤ data.length := by
    rw [hdata]
    unfold BtfTable.encode
    simp only [List.length_append, length_leBytes, List.length_cons, List.length_nil]
    omega
  rw [← hdata]
  unfold BtfTable.encode at hall
  dsimp only at hall
  -- the fields of the header, from the last to the first
  have hstrings := hall.right
  have htypes := hall.left.right
  have hstrOff := hall.left.left.left.right
  have htypeLen := hall.left.left.left.left.right
  have htypeOff := hall.left.left.left.left.left.right
  have hhdrLen := hall.left.left.left.left.left.left.right
  have hmagic := hall.left.left.left.left.left.left.left.left
  simp only [List.length_append, length_leBytes, List.length_cons, List.length_nil,
    Nat.zero_add, Nat.reduceAdd] at hstrings htypes hstrOff htypeLen htypeOff hhdrLen
  unfold parseBtf
  rw [if_neg (by omega), unpackAt_leBytes (by decide) hmagic (by decide),
    unpackAt_leBytes (by decide) hhdrLen (by decide),
    unpackAt_leBytes (by decide) htypeOff (by decide),
    unpackAt_leBytes (by decide) htypeLen t.fits.1, unpackAt_leBytes (by decide) hstrOff t.fits.1]
  dsimp only [bind, Except.bind]
  rw [if_neg (by decide)]
  exact parseTypes_records hstrings t.named htypes rfl (Nat.le_refl _)

end Records

/-! ## Sizes -/

/-- The types that have a size of their own. -/
def BtfBody.isSized : BtfBody → Bool
  | .int _ | .struct _ | .union _ | .enum _ | .float | .enum64 _ => true
  | _ => false

/-- The types that stand for another one: typedefs, qualifiers and type tags. -/
def BtfBody.isAlias : BtfBody → Bool
  | .typedef | .volatile | .const | .restrict | .typeTag => true
  | _ => false

/-- The size that a type id reaches by a chain of aliases and array dimensions of length `d`:
the size of the last type, times the dimensions on the way. -/
inductive SizeOf (rs : List BtfRecord) : Nat → Nat → Nat → Prop
  | sized {id : Nat} {r : BtfRecord} (hr : rs[id]? = some r) (h : r.body.isSized) :
      SizeOf rs 0 (id + 1) r.sizeOrType.toNat
  | pointer {id : Nat} {r : BtfRecord} (hr : rs[id]? = some r) (h : r.body = .ptr) :
      SizeOf rs 0 (id + 1) 8
  | array {d id size : Nat} {r : BtfRecord} {elemType indexType nelems : UInt32}
      (hr : rs[id]? = some r) (h : r.body = .array elemType indexType nelems)
      (helem : SizeOf rs d elemType.toNat size) :
      SizeOf rs (d + 1) (id + 1) (size * nelems.toNat)
  | through {d id size : Nat} {r : BtfRecord} (hr : rs[id]? = some r) (h : r.body.isAlias)
      (hnext : SizeOf rs d r.sizeOrType.toNat size) : SizeOf rs (d + 1) (id + 1) size

section Sizes

variable {rs : List BtfRecord} {d d' id size size' : Nat}

/-- The type that a record refers to on the way to a size. -/
def BtfRecord.next (r : BtfRecord) : Option Nat :=
  match r.body with
  | .array elemType _ _ => some elemType.toNat
  | .typedef | .volatile | .const | .restrict | .typeTag => some r.sizeOrType.toNat
  | _ => none

theorem next_of_isSized {r : BtfRecord} (h : r.body.isSized) : r.next = none := by
  unfold BtfRecord.next
  split <;> simp_all [BtfBody.isSized]

theorem next_of_isAlias {r : BtfRecord} (h : r.body.isAlias) : r.next = some r.sizeOrType.toNat := by
  unfold BtfRecord.next
  split <;> simp_all [BtfBody.isAlias]

def nextId (rs : List BtfRecord) (id : Nat) : Option Nat := (rs[id - 1]?).bind BtfRecord.next

/-- The record of a type id that has a size, and the rest of its chain. -/
theorem SizeOf.nextId (h : SizeOf rs d id size) : 0 < id ∧ id ≤ rs.length ∧
    match d with
    | 0 => nextId rs id = none
    | d + 1 => ∃ next size', nextId rs id = some next ∧ SizeOf rs d next size' := by
  have hlt : ∀ {i : Nat} {r : BtfRecord}, rs[i]? = some r → i + 1 ≤ rs.length := fun hr =>
    (List.getElem?_eq_some_iff.mp hr).1
  unfold Hornet.nextId
  cases h with
  | sized hr hsized => exact ⟨by omega, hlt hr, by simp [hr, next_of_isSized hsized]⟩
  | pointer hr hptr => exact ⟨by omega, hlt hr, by simp [hr, BtfRecord.next, hptr]⟩
  | array hr hbody helem =>
      exact ⟨by omega, hlt hr, _, _, by simp [hr, BtfRecord.next, hbody], helem⟩
  | through hr halias hnext =>
      exact ⟨by omega, hlt hr, _, _, by simp [hr, next_of_isAlias halias], hnext⟩

/-- The chain of a type id has one length. -/
theorem SizeOf.depth_unique (h : SizeOf rs d id size) (h' : SizeOf rs d' id size') : d = d' := by
  induction d generalizing d' id size size' with
  | zero =>
      cases d' with
      | zero => rfl
      | succ d' =>
          obtain ⟨next, size'', hnext, -⟩ := h'.nextId.2.2
          rw [h.nextId.2.2] at hnext
          cases hnext
  | succ d ih =>
      obtain ⟨next, s, hnext, htail⟩ := h.nextId.2.2
      cases d' with
      | zero =>
          rw [h'.nextId.2.2] at hnext
          cases hnext
      | succ d' =>
          obtain ⟨next', s', hnext', htail'⟩ := h'.nextId.2.2
          obtain rfl := Option.some.inj (hnext.symm.trans hnext')
          rw [ih htail htail']

/-- The types along a chain are different ones. -/
theorem SizeOf.chain (h : SizeOf rs d id size) : ∃ ids : List Nat, ids.length = d + 1 ∧ ids.Nodup ∧
    ∀ i ∈ ids, 0 < i ∧ i ≤ rs.length ∧ ∃ k ≤ d, ∃ s, SizeOf rs k i s := by
  induction d generalizing id size with
  | zero =>
      refine ⟨[id], rfl, List.nodup_singleton _, ?_⟩
      intro i hi
      obtain rfl := List.mem_singleton.mp hi
      exact ⟨h.nextId.1, h.nextId.2.1, 0, Nat.le_refl _, size, h⟩
  | succ d ih =>
      obtain ⟨next, s, -, htail⟩ := h.nextId.2.2
      obtain ⟨ids, hlen, hnodup, hall⟩ := ih htail
      refine ⟨id :: ids, by rw [List.length_cons, hlen], List.nodup_cons.mpr ⟨?_, hnodup⟩, ?_⟩
      · intro hin
        obtain ⟨-, -, k, hk, s', hshort⟩ := hall id hin
        have heq := h.depth_unique hshort
        omega
      · intro i hi
        rcases List.mem_cons.mp hi with rfl | hi
        · exact ⟨h.nextId.1, h.nextId.2.1, d + 1, Nat.le_refl _, size, h⟩
        · obtain ⟨hpos, hle, k, hk, hsize⟩ := hall i hi
          exact ⟨hpos, hle, k, by omega, hsize⟩

/-- A chain is not longer than the table. -/
theorem SizeOf.depth_lt (h : SizeOf rs d id size) : d < rs.length := by
  obtain ⟨ids, hlen, hnodup, hall⟩ := h.chain
  have hsub : ids.Subperm ((List.range rs.length).map (· + 1)) := by
    apply hnodup.subperm
    intro i hi
    obtain ⟨hpos, hle, -⟩ := hall i hi
    exact List.mem_map.mpr ⟨i - 1, List.mem_range.mpr (by omega), by omega⟩
  have hle := hsub.length_le
  rw [List.length_map, List.length_range, hlen] at hle
  omega

theorem btfTypeAt_record {id : Nat} {r : BtfRecord} (hr : rs[id]? = some r) :
    btfTypeAt (rs.map BtfRecord.toType) (id + 1) = .ok r.toType := by
  unfold btfTypeAt
  dsimp only
  rw [List.getElem?_map, hr]
  rfl

/-- With fuel for the whole chain the size is found. -/
theorem SizeOf.btfTypeSize (h : SizeOf rs d id size) {fuel : Nat} (hfuel : d < fuel) :
    btfTypeSize (rs.map BtfRecord.toType) fuel id = .ok size := by
  obtain ⟨fuel, rfl⟩ : ∃ n, fuel = n + 1 := ⟨fuel - 1, by omega⟩
  induction h generalizing fuel with
  | @sized id r hr hsized =>
      have hkind : [1, 4, 5, 6, 16, 19].contains r.toType.kind = true := by
        unfold BtfRecord.toType
        cases hbody : r.body <;> simp_all [BtfBody.isSized, BtfBody.kind]
      rw [Hornet.btfTypeSize, if_neg (by omega), btfTypeAt_record hr]
      dsimp only [bind, Except.bind]
      rw [if_pos hkind]
      rfl
  | @pointer id r hr hptr =>
      have hkind : r.toType.kind = 2 := by
        unfold BtfRecord.toType
        rw [hptr]
        rfl
      rw [Hornet.btfTypeSize, if_neg (by omega), btfTypeAt_record hr]
      dsimp only [bind, Except.bind]
      rw [hkind]
      rfl
  | @array d id size r elemType indexType nelems hr hbody helem ih =>
      have hkind : r.toType.kind = 3 ∧
          r.toType.extra = .array elemType.toNat indexType.toNat nelems.toNat := by
        unfold BtfRecord.toType
        rw [hbody]
        exact ⟨rfl, rfl⟩
      obtain ⟨fuel, rfl⟩ : ∃ n, fuel = n + 1 := ⟨fuel - 1, by omega⟩
      rw [Hornet.btfTypeSize, if_neg (by omega), btfTypeAt_record hr]
      dsimp only [bind, Except.bind]
      rw [hkind.1, hkind.2, if_neg (by decide), if_neg (by decide), if_pos rfl]
      dsimp only
      rw [ih fuel (by omega)]
      rfl
  | @through d id size r hr halias hnext ih =>
      have hkind : [8, 9, 10, 11, 18].contains r.toType.kind = true ∧
          [1, 4, 5, 6, 16, 19].contains r.toType.kind = false ∧
          r.toType.kind ≠ 2 ∧ r.toType.kind ≠ 3 := by
        unfold BtfRecord.toType
        cases hbody : r.body <;> simp_all [BtfBody.isAlias, BtfBody.kind]
      obtain ⟨fuel, rfl⟩ : ∃ n, fuel = n + 1 := ⟨fuel - 1, by omega⟩
      rw [Hornet.btfTypeSize, if_neg (by omega), btfTypeAt_record hr]
      dsimp only [bind, Except.bind]
      rw [if_neg (Bool.eq_false_iff.mp hkind.2.1), if_neg hkind.2.2.1, if_neg hkind.2.2.2, if_pos hkind.1]
      exact ih fuel (by omega)

end Sizes

/-- A section is read as its records, each under its own type id, and the size of a type is
the size that its chain reaches times the dimensions on the way. -/
theorem btf_decodes (t : BtfTable) :
    parseBtf t.encode = .ok (t.records.map BtfRecord.toType) ∧
    (∀ id r, t.records[id]? = some r →
      btfTypeAt (t.records.map BtfRecord.toType) (id + 1) = .ok r.toType) ∧
    ∀ d id size, SizeOf t.records d id size →
      btfTypeSize (t.records.map BtfRecord.toType) (t.records.length + 1) id = .ok size := by
  refine ⟨parseBtf_encode t, fun id r hr => btfTypeAt_record hr, fun d id size h => ?_⟩
  have hlt := h.depth_lt
  exact h.btfTypeSize (by omega)

/-- `typedef const u32 t[3]` -/
def typedefTable : BtfTable where
  records := [⟨"u32", 1, false, 0, 4, .int 32, nofun⟩, ⟨"", 0, false, 0, 1, .const, nofun⟩,
    ⟨"", 0, false, 0, 0, .array 2 1 3, nofun⟩, ⟨"t", 5, false, 0, 3, .typedef, nofun⟩]
  strings := 0 :: utf8 "u32" ++ 0 :: utf8 "t" ++ [0]
  named := by
    have hempty : 0 ∉ utf8 "" ∧ utf8 "" ++ [0] <+: 0 :: utf8 "u32" ++ 0 :: utf8 "t" ++ [0] := by
      decide
    have hint : 0 ∉ utf8 "u32" ∧ utf8 "u32" ++ [0] <+: utf8 "u32" ++ 0 :: utf8 "t" ++ [0] := by
      decide
    have ht : 0 ∉ utf8 "t" ∧ utf8 "t" ++ [0] <+: utf8 "t" ++ [0] := by decide
    intro r hr
    simp only [List.mem_cons, List.not_mem_nil, or_false] at hr
    rcases hr with rfl | rfl | rfl | rfl
    · exact ⟨hint, nofun⟩
    · exact ⟨hempty, nofun⟩
    · exact ⟨hempty, nofun⟩
    · exact ⟨ht, nofun⟩
  fits := by decide

theorem btf_decodes_typedef :
    parseBtf typedefTable.encode = .ok (typedefTable.records.map BtfRecord.toType) ∧
      btfTypeSize (typedefTable.records.map BtfRecord.toType) 5 4 = .ok (4 * 3) := by
  have hint : SizeOf typedefTable.records 0 1 4 :=
    .sized (show typedefTable.records[0]? = some _ from rfl) rfl
  have hconst : SizeOf typedefTable.records 1 2 4 :=
    .through (show typedefTable.records[1]? = some _ from rfl) rfl hint
  have harray : SizeOf typedefTable.records 2 3 (4 * 3) :=
    .array (show typedefTable.records[2]? = some _ from rfl) rfl hconst
  have hsize : SizeOf typedefTable.records 3 4 (4 * 3) :=
    .through (show typedefTable.records[3]? = some _ from rfl) rfl harray
  exact ⟨(btf_decodes typedefTable).1, (btf_decodes typedefTable).2.2 3 4 _ hsize⟩

end Hornet
