import Hornet.Track.Contents
import Hornet.Verify.SpecParse

/-!
The initial state of an input. The packet bytes, the map entries and the scalars that the
input gives are stored over free variables, the entries of a map over an empty one: the
memories that this state denotes, over all models, are those that have what is given.
-/

namespace Hornet

open Smt Lib

variable {maps : List MapInfo}

/-! ## Arrays with stored cells -/

section Pins

variable {n : Nat} {α : Type}

/-- The last value given for an address. -/
def lastAt (pins : List (BitVec n × α)) (a : BitVec n) : Option α :=
  pins.foldl (fun o x => if a = x.1 then some x.2 else o) none

/-- An array with cells stored into it one after the other. -/
def storePins {r : Srt} (t : ZTerm (.array n r)) (pins : List (BitVec n × ZTerm r)) :
    ZTerm (.array n r) :=
  pins.foldl (fun t x => .store t (.const x.1) x.2) t

theorem foldl_lastAt (pins : List (BitVec n × α)) (a : BitVec n) (o : Option α) :
    pins.foldl (fun o x => if a = x.1 then some x.2 else o) o = (lastAt pins a).or o := by
  induction pins generalizing o with
  | nil => rfl
  | cons x pins ih =>
      rw [lastAt, List.foldl_cons, List.foldl_cons, ih, ih]
      split <;> simp

theorem eval_storePins {r : Srt} (m : ZModel) (pins : List (BitVec n × ZTerm r))
    (t : ZTerm (.array n r)) (a : BitVec n) :
    (storePins t pins).eval m a = ((lastAt pins a).map (Term.eval m)).getD (t.eval m a) := by
  induction pins generalizing t with
  | nil => rfl
  | cons x pins ih =>
      have hlast : lastAt (x :: pins) a = (lastAt pins a).or (if a = x.1 then some x.2 else none) := by
        rw [← foldl_lastAt]
        rfl
      rw [storePins, List.foldl_cons, ← storePins, ih, hlast, Term.eval_store, Term.eval_const]
      cases lastAt pins a with
      | some v => rfl
      | none =>
          split <;> rfl

theorem lastAt_map {β : Type} (f : α → β) (pins : List (BitVec n × α)) (a : BitVec n) :
    lastAt (pins.map fun x => (x.1, f x.2)) a = (lastAt pins a).map f := by
  have hfold (o : Option α) : (pins.map fun x => (x.1, f x.2)).foldl
      (fun o x => if a = x.1 then some x.2 else o) (o.map f) =
        (pins.foldl (fun o x => if a = x.1 then some x.2 else o) o).map f := by
    induction pins generalizing o with
    | nil => rfl
    | cons x pins ih =>
        rw [List.map_cons, List.foldl_cons, List.foldl_cons, ← ih]
        split <;> rfl
  exact hfold none

end Pins

/-! ## The state of an input -/

namespace InputSpec

variable (maps : List MapInfo) (input : InputSpec)

/-- The packet bytes that are given. -/
def packetCells : List (BitVec PKT_ADDR_BITS × BitVec 8) :=
  input.pktBytes.map fun x => (BitVec.ofNat _ x.1, BitVec.ofNat 8 x.2.toNat)

/-- The entries of a map, if the input lists it. -/
def mapCells (mapId : Nat) : Option (List (BitVec (keyBits maps mapId) × BitVec (valBits maps mapId))) :=
  (input.mapValues.get? mapId).map fun kv =>
    kv.entries.map fun x => (BitVec.ofNat _ x.1, BitVec.ofNat _ x.2)

end InputSpec

/-- A scalar that is given, or a variable. -/
def scalarTerm (name : Var) (v : Option Int) : ZTerm (.bv 64) :=
  match v with
  | some n => bvVal n 64
  | none => .var name _

/-- The initial state of an input. A map that it lists has its entries and no others. -/
def z3StateFromInput (maps : List MapInfo) (input : InputSpec) : Z3State maps where
  pkt := storePins (.var .pkt0 _) (input.packetCells.map fun x => (x.1, .const x.2))
  map mapId :=
    match input.mapCells maps mapId with
    | none => ⟨.var (.present mapId) _, .var (.value mapId) _⟩
    | some cells =>
        ⟨storePins (.constArray _ (.boolVal false)) (cells.map fun x => (x.1, .boolVal true)),
          storePins (.var (.value mapId) _) (cells.map fun x => (x.1, .const x.2))⟩
  r0 := .var .r0 _
  rxIndex := scalarTerm .rxQueueIndex0 input.rxQueueIndex
  ingress := scalarTerm .ingressIfindex input.ingressIfindex
  egress := scalarTerm .egressIfindex input.egressIfindex
  pktLen := scalarTerm .pktLen input.pktLen
  bss _ := none

/-! ## What the state denotes -/

/-- The length of the packet and the fields of its context. -/
@[ext] structure PacketMeta where
  pktLen : BitVec 64
  rxIndex : BitVec 64
  ingress : BitVec 64
  egress : BitVec 64

def Z3State.packetMeta (m : ZModel) (st : Z3State maps) : PacketMeta :=
  ⟨st.pktLen.eval m, st.rxIndex.eval m, st.ingress.eval m, st.egress.eval m⟩

/-- The scalar has the value that is given for it, if one is. -/
def Given (v : Option Int) (x : BitVec 64) : Prop := ∀ n, v = some n → x = BitVec.ofInt 64 n

/-- A memory and a packet as the input describes them. A byte or an entry that is given
twice has the later value, a listed map has no other entries, the `.bss` symbols are zero. -/
structure InputSpec.Admits (input : InputSpec) (c : Contents maps) (p : PacketMeta) : Prop where
  packet : ∀ a b, lastAt input.packetCells a = some b → c.pkt a = b
  indexed : ∀ i k, isIndexed maps i = true → c.present i k = inRange maps i k
  listed : ∀ i cells k, isIndexed maps i = false → input.mapCells maps i = some cells →
    c.present i k = (lastAt cells k).isSome
  value : ∀ i cells k v, (isIndexed maps i && !inRange maps i k) = false →
    input.mapCells maps i = some cells → lastAt cells k = some v → c.value i k = v
  beyond : ∀ i k, (isIndexed maps i && !inRange maps i k) = true → c.value i k = 0#_
  bss : ∀ key a, c.bss key a = 0#8
  pktLen : Given input.pktLen p.pktLen
  rxIndex : Given input.rxQueueIndex p.rxIndex
  ingress : Given input.ingressIfindex p.ingress
  egress : Given input.egressIfindex p.egress

section Models

variable {input : InputSpec}

theorem given_scalarTerm (m : ZModel) (name : Var) (v : Option Int) :
    Given v ((scalarTerm name v).eval m) := by
  rintro n rfl
  exact eval_bvVal m n 64

theorem eval_packet (m : ZModel) (a : BitVec PKT_ADDR_BITS) :
    (z3StateFromInput maps input).pkt.eval m a =
      (lastAt input.packetCells a).getD (m (.array PKT_ADDR_BITS (.bv 8)) .pkt0 a) := by
  rw [z3StateFromInput, eval_storePins, lastAt_map]
  cases lastAt input.packetCells a <;> rfl

variable {i : Nat} {k : BitVec (keyBits maps i)}
  {cells : List (BitVec (keyBits maps i) × BitVec (valBits maps i))}

theorem eval_present_listed (m : ZModel) (hcells : input.mapCells maps i = some cells) :
    ((z3StateFromInput maps input).map i).present.eval m k = (lastAt cells k).isSome := by
  simp only [z3StateFromInput, hcells]
  rw [eval_storePins, lastAt_map fun _ => Term.boolVal true]
  cases lastAt cells k <;> rfl

theorem eval_value_listed (m : ZModel) (hcells : input.mapCells maps i = some cells) :
    ((z3StateFromInput maps input).map i).value.eval m k = (lastAt cells k).getD
      (m (.array (keyBits maps i) (.bv (valBits maps i))) (.value i) k) := by
  simp only [z3StateFromInput, hcells]
  rw [eval_storePins, lastAt_map]
  cases lastAt cells k <;> rfl

theorem map_unlisted (hcells : input.mapCells maps i = none) :
    (z3StateFromInput maps input).map i = ⟨.var (.present i) _, .var (.value i) _⟩ := by
  simp only [z3StateFromInput, hcells]

/-- Every model of the initial state denotes what the input describes. -/
theorem admits_contents (m : ZModel) :
    input.Admits ((z3StateFromInput maps input).contents m)
      ((z3StateFromInput maps input).packetMeta m) where
  packet a b hb := by
    show (z3StateFromInput maps input).pkt.eval m a = b
    rw [eval_packet, hb]
    rfl
  indexed i k hi := by
    show ((z3StateFromInput maps input).map i).presence m k = inRange maps i k
    rw [MapArrays.presence, if_pos hi]
  listed i cells k hi hcells := by
    show ((z3StateFromInput maps input).map i).presence m k = _
    rw [MapArrays.presence, if_neg (Bool.eq_false_iff.mp hi), eval_present_listed m hcells]
  value i cells k v hin hcells hv := by
    show ((z3StateFromInput maps input).map i).values m k = v
    rw [MapArrays.values, if_neg (Bool.eq_false_iff.mp hin), eval_value_listed m hcells, hv]
    rfl
  beyond i k hout := by
    show ((z3StateFromInput maps input).map i).values m k = 0#_
    rw [MapArrays.values, if_pos hout]
  bss key a := by
    show (bssOf (z3StateFromInput maps input) key).eval m a = 0#8
    cases key <;> exact eval_bvVal m 0 8
  pktLen := given_scalarTerm m _ _
  rxIndex := given_scalarTerm m _ _
  ingress := given_scalarTerm m _ _
  egress := given_scalarTerm m _ _

end Models

/-! ## A model for each of them -/

/-- A value of sort `s₀`, at that sort. -/
def Smt.Srt.at (s₀ : Srt) (v : s₀.Value) (s : Srt) : s.Value :=
  if h : s₀ = s then h ▸ v else s.zero

theorem Smt.Srt.at_self (s : Srt) (v : s.Value) : s.at v s = v := by
  rw [Srt.at, dif_pos rfl]

/-- The assignment under which the variables of the initial state have these contents. -/
def modelOf (c : Contents maps) (p : PacketMeta) : ZModel := fun s name =>
  match name with
  | .pkt0 => Srt.at (.array PKT_ADDR_BITS (.bv 8)) c.pkt s
  | .present i => Srt.at (.array (keyBits maps i) .bool) (c.present i) s
  | .value i => Srt.at (.array (keyBits maps i) (.bv (valBits maps i))) (c.value i) s
  | .pktLen => Srt.at (.bv 64) p.pktLen s
  | .rxQueueIndex0 => Srt.at (.bv 64) p.rxIndex s
  | .ingressIfindex => Srt.at (.bv 64) p.ingress s
  | .egressIfindex => Srt.at (.bv 64) p.egress s
  | _ => s.zero

section ModelOf

variable {input : InputSpec} {c : Contents maps} {p : PacketMeta}

theorem eval_scalarTerm_of_given {name : Var} {v : Option Int} {x : BitVec 64} {m : ZModel}
    (hvar : m (.bv 64) name = x) (h : Given v x) : (scalarTerm name v).eval m = x := by
  cases v with
  | none => exact hvar
  | some n => exact (eval_bvVal m n 64).trans (h n rfl).symm

theorem pkt_modelOf (h : input.Admits c p) :
    (z3StateFromInput maps input).pkt.eval (modelOf c p) = c.pkt := by
  funext a
  rw [eval_packet]
  cases hlast : lastAt input.packetCells a with
  | none => exact congrFun (Srt.at_self (.array PKT_ADDR_BITS (.bv 8)) c.pkt) a
  | some b => exact (h.packet a b hlast).symm

theorem presence_modelOf (h : input.Admits c p) (i : Nat) :
    ((z3StateFromInput maps input).map i).presence (modelOf c p) = c.present i := by
  funext k
  rw [MapArrays.presence]
  split
  · rename_i hi
    exact (h.indexed i k hi).symm
  · rename_i hi
    cases hcells : input.mapCells maps i with
    | none =>
        rw [map_unlisted hcells]
        exact congrFun (Srt.at_self (.array (keyBits maps i) .bool) (c.present i)) k
    | some cells =>
        rw [eval_present_listed _ hcells]
        exact (h.listed i cells k (Bool.eq_false_iff.mpr hi) hcells).symm

theorem values_modelOf (h : input.Admits c p) (i : Nat) :
    ((z3StateFromInput maps input).map i).values (modelOf c p) = c.value i := by
  funext k
  have hvar : modelOf c p (.array (keyBits maps i) (.bv (valBits maps i))) (.value i) k = c.value i k :=
    congrFun (Srt.at_self (.array (keyBits maps i) (.bv (valBits maps i))) (c.value i)) k
  rw [MapArrays.values]
  split
  · rename_i hout
    exact (h.beyond i k hout).symm
  · rename_i hin
    cases hcells : input.mapCells maps i with
    | none =>
        rw [map_unlisted hcells]
        exact hvar
    | some cells =>
        rw [eval_value_listed _ hcells]
        cases hlast : lastAt cells k with
        | none => exact hvar
        | some v => exact (h.value i cells k v (Bool.eq_false_iff.mpr hin) hcells hlast).symm

theorem bss_modelOf (h : input.Admits c p) (key : Option String) :
    (bssOf (z3StateFromInput maps input) key).eval (modelOf c p) = c.bss key := by
  funext a
  rw [h.bss key a]
  cases key <;> exact eval_bvVal (modelOf c p) 0 8

/-- The solver looks for models among the starts that the input describes and no others: a
memory and a packet are denoted by a model of the initial state exactly if the input admits
them. -/
theorem input_denotes_iff :
    (∃ m, (z3StateFromInput maps input).contents m = c ∧
      (z3StateFromInput maps input).packetMeta m = p) ↔ input.Admits c p := by
  constructor
  · rintro ⟨m, rfl, rfl⟩
    exact admits_contents m
  · intro h
    refine ⟨modelOf c p, ?_, ?_⟩
    · ext1
      · exact pkt_modelOf h
      · exact funext (presence_modelOf h)
      · exact funext (values_modelOf h)
      · exact funext (bss_modelOf h)
    · ext1
      · exact eval_scalarTerm_of_given (Srt.at_self (.bv 64) p.pktLen) h.pktLen
      · exact eval_scalarTerm_of_given (Srt.at_self (.bv 64) p.rxIndex) h.rxIndex
      · exact eval_scalarTerm_of_given (Srt.at_self (.bv 64) p.ingress) h.ingress
      · exact eval_scalarTerm_of_given (Srt.at_self (.bv 64) p.egress) h.egress

end ModelOf

end Hornet
