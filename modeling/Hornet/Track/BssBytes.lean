import Hornet.Lib.ByteMap
import Hornet.Track.VarOff

/-!
The stores to a `.bss` symbol against an array of bytes: whether a read of a byte gives
what was last stored there.
-/

namespace Hornet

open Smt Lib

/-- What is asked of a symbol: bytes stored from the offset `t` on, or added there. -/
inductive SymbolStore where
  | write (t : Nat) {size : Nat} (new : Bytes size)
  | atomicAdd (t : Nat) {size : Nat} (addend : Bytes size)

namespace SymbolStore

variable {n : Nat}

/-- The bytes of the symbol after a store. -/
def step (c : Bytes n) : SymbolStore → Bytes n
  | .write t new => c.splice t new
  | .atomicAdd t addend => c.addAt t addend

end SymbolStore

/-- The sizes of an access. -/
def IsAccess (n : Nat) : Prop := n = 1 ∨ n = 2 ∨ n = 4 ∨ n = 8

/-- The store lies inside a symbol of `n` bytes. -/
def SymbolStore.InBounds (n : Nat) : SymbolStore → Prop
  | @write t size _ => IsAccess size ∧ t + size ≤ n
  | @atomicAdd t size _ => IsAccess size ∧ t + size ≤ n

section Stores

variable {maps : List MapInfo} (R : Option (Reads maps)) (blk : Option Nat) (m : ZModel)
  (key : String)

/-- The store to the symbol `key` that an action is: at the offset to which the machine's
address points, with the operand as it is in the state. -/
def symbolStore (st : Z3State maps) : Action → Except LowerError (Option SymbolStore)
  | .bssWrite k off size value varOff => do
      if k = some key then
        let vo ← optToZ3 R blk st varOff
        let v ← someToZ3 R blk st value
        pure (some (.write (machineOffset off (varDist m vo)) (Bytes.ofNat size (v.toNat m))))
      else pure none
  | .bssAtomicAdd k off size value varOff _ => do
      if k = some key then
        let vo ← optToZ3 R blk st varOff
        let v ← someToZ3 R blk st value
        pure (some (.atomicAdd (machineOffset off (varDist m vo)) (Bytes.ofNat size (v.toNat m))))
      else pure none
  | _ => pure none

/-- A run of actions with the stores to the symbol among them. -/
inductive StoresTo : Z3State maps → List Event → List SymbolStore → Z3State maps → Prop
  | nil (st : Z3State maps) : StoresTo st [] [] st
  | cons {st st' st'' : Z3State maps} {e : Event} {es : List Event} {r : Option SymbolStore}
      {rs : List SymbolStore} (hr : symbolStore R blk m key st e.action = .ok r)
      (hst : e.toZ3 R blk st = .ok st') (h : StoresTo st' es rs st'') :
      StoresTo st (e :: es) (r.toList ++ rs) st''

end Stores

/-- The bytes of the symbol `key`, of `n` bytes, are distinct: after any run in which its
stores are in bounds, a read in bounds gives the bytes that were last stored there, or
zeros. -/
def BytesDistinct (key : String) (n : Nat) : Prop :=
  ∀ (maps : List MapInfo) (R : Option (Reads maps)) (blk : Option Nat) (m : ZModel)
    (st st' : Z3State maps) (es : List Event) (rs : List SymbolStore),
    Rereads R → st.bss key = none → StoresTo R blk m key st es rs st' →
    (∀ r ∈ rs, r.InBounds n) →
    ∀ (block : Nat) (idx off : Int) (varOff : Option Expr) (vo : Option ZBv) (size : Nat),
      IsAccess size →
      (∀ R', R = some R' →
        R'.readBss (.bssVal block idx (some key) off varOff size) = .ok none) →
      optToZ3 R blk st' varOff = .ok vo → machineOffset off (varDist m vo) + size ≤ n →
      ∃ t, exprToZ3 R blk st' (.bssVal block idx (some key) off varOff size) = .ok t ∧
        t.toNat m = Bytes.toNat ((rs.foldl SymbolStore.step (fun _ => 0#8 : Bytes n)).field
          (machineOffset off (varDist m vo)) size)

section Window

variable {maps : List MapInfo} {R : Option (Reads maps)} {blk : Option Nat} {m : ZModel}
  {key : String} {n : Nat} {st st' : Z3State maps}

variable (m key n) in
/-- The bytes of the symbol in a state. -/
def symbolBytes (st : Z3State maps) : Bytes n :=
  Bytes.window (d := BSS_ADDR_BITS) ((bssOf st (some key)).eval m) n

/-- The address of the encoding is the machine's, cut down to its bits. -/
theorem ofInt_eq_machineOffset {d : Nat} (hd : d ≤ 64) (off : Int) (v : Nat) :
    BitVec.ofInt d (v + off) = BitVec.ofNat d (machineOffset off v) := by
  have hcast : (machineOffset off v : Int) = (v + off) % 2 ^ 64 := machineOffset_cast
  have hdvd : ((2 ^ d : Nat) : Int) ∣ 2 ^ 64 := by
    have hpow : (2 : Int) ^ d ∣ 2 ^ 64 := pow_dvd_pow 2 hd
    exact_mod_cast hpow
  have hmod : ((machineOffset off v : Nat) : Int) % (2 ^ d : Nat) = (v + off) % (2 ^ d : Nat) := by
    rw [hcast, Int.emod_emod_of_dvd _ hdvd]
  apply BitVec.eq_of_toNat_eq
  rw [BitVec.toNat_ofInt, BitVec.toNat_ofNat, ← hmod, ← Int.natCast_emod, Int.toNat_natCast]

theorem symbolBytes_of_bss {st st' : Z3State maps} (h : st'.bss key = st.bss key) :
    symbolBytes m key n st' = symbolBytes m key n st := by
  unfold symbolBytes bssOf
  rw [Option.bind_some, Option.bind_some, h]

/-- A store at an address of the symbol. -/
theorem symbolBytes_write {c c' : Contents maps} {off : Int} {vo : Option ZBv} {size : Nat}
    {v : BitVec (size * 8)} (hn : n ≤ 2 ^ BSS_ADDR_BITS) (hin : machineOffset off (varDist m vo) + size ≤ n)
    (h : c' = c.write v (.bss (some key) (BitVec.ofInt BSS_ADDR_BITS (varDist m vo + off)))) :
    Bytes.window (c'.bss (some key)) n =
      (Bytes.window (c.bss (some key)) n).splice (machineOffset off (varDist m vo))
        (Bytes.ofWord v) := by
  rw [h, ofInt_eq_machineOffset (by decide), Contents.write]
  show Bytes.window (Function.update c.bss (some key) _ (some key)) n = _
  rw [Function.update_self]
  exact Bytes.window_putBytes _ hn hin v

end Window

section Run

variable {maps : List MapInfo} {R : Option (Reads maps)} {blk : Option Nat} {m : ZModel}
  {key : String} {n : Nat} {st st' : Z3State maps}

theorem bssWrite_symbolBytes (hn : n ≤ 2 ^ BSS_ADDR_BITS) {off : Int} {size : Nat}
    {value varOff : Option Expr} {vo : Option ZBv} {v : ZBv} (hsize : IsAccess size)
    (hvo : optToZ3 R blk st varOff = .ok vo) (hv : someToZ3 R blk st value = .ok v)
    (hin : machineOffset off (varDist m vo) + size ≤ n)
    (h : bssWriteToZ3 R blk st key off size value varOff = .ok st') :
    symbolBytes m key n st' = (symbolBytes m key n st).splice (machineOffset off (varDist m vo))
      (Bytes.ofNat size (v.toNat m)) := by
  have hpos : 0 < size ∧ size ≤ 8 := by
    unfold IsAccess at hsize
    omega
  obtain ⟨vo', v', hvo', hv', hcontents⟩ := contents_bssWrite (m := m) hpos.1 hpos.2 h
  cases hvo.symm.trans hvo'
  cases hv.symm.trans hv'
  have hbytes := symbolBytes_write hn hin hcontents
  rw [eval_resize] at hbytes
  exact hbytes

theorem bssAtomicAdd_symbolBytes (hR : Rereads R) (hn : n ≤ 2 ^ BSS_ADDR_BITS) {off : Int}
    {size : Nat} {value varOff : Option Expr} {vo : Option ZBv} {v : ZBv} (hsize : IsAccess size)
    (hvo : optToZ3 R blk st varOff = .ok vo) (hv : someToZ3 R blk st value = .ok v)
    (hin : machineOffset off (varDist m vo) + size ≤ n)
    (h : bssAtomicAddToZ3 R blk st key off size value varOff = .ok st') :
    symbolBytes m key n st' = (symbolBytes m key n st).addAt (machineOffset off (varDist m vo))
      (Bytes.ofNat size (v.toNat m)) := by
  obtain ⟨vo', v', hvo', hv', hcontents⟩ := contents_bssAtomicAdd (m := m) hR hsize h
  cases hvo.symm.trans hvo'
  cases hv.symm.trans hv'
  have hbytes := symbolBytes_write hn hin hcontents
  -- the old value is the field of the symbol
  have hold : (st.contents m).read size (.bss (some key)
      (BitVec.ofInt BSS_ADDR_BITS (varDist m vo + off))) = BitVec.ofNat (size * 8)
        (Bytes.toNat ((symbolBytes m key n st).field (machineOffset off (varDist m vo)) size)) := by
    rw [ofInt_eq_machineOffset (by decide), Contents.read]
    exact congrArg (BitVec.ofNat (size * 8)) (Bytes.getBytes_window _ hin)
  have haddend : (Bytes.ofNat size (v.toNat m)).toNat = v.toNat m % 2 ^ (size * 8) := by
    rw [Bytes.ofNat, Bytes.toNat_ofWord, BitVec.toNat_ofNat]
  have hsum : ∀ x : Nat, BitVec.ofNat (size * 8) x + BitVec.ofNat (size * 8) (v.toNat m) =
      BitVec.ofNat (size * 8) (x + v.toNat m % 2 ^ (size * 8)) := by
    intro x
    apply BitVec.eq_of_toNat_eq
    simp [BitVec.toNat_add, BitVec.toNat_ofNat, Nat.add_mod]
  rw [hold, eval_resize, hsum, ← haddend] at hbytes
  exact hbytes

/-- What an action does to the bytes of a symbol is the store that it is, if any. -/
theorem event_symbolBytes (hR : Rereads R) (hn : n ≤ 2 ^ BSS_ADDR_BITS) {e : Event}
    {r : Option SymbolStore} (hr : symbolStore R blk m key st e.action = .ok r)
    (hin : ∀ x ∈ r.toList, x.InBounds n) (h : e.toZ3 R blk st = .ok st') :
    symbolBytes m key n st' = r.toList.foldl SymbolStore.step (symbolBytes m key n st) := by
  have hframe : e.action.bssKey ≠ some key → symbolBytes m key n st' = symbolBytes m key n st := by
    intro hne
    apply symbolBytes_of_bss
    cases event_changed h with
    | bss k arr hk =>
        have hkey : key ≠ k := fun heq => hne (heq ▸ hk)
        exact Function.update_of_ne hkey _ _
    | _ => rfl
  obtain ⟨block, idx, action⟩ := e
  cases action with
  | bssWrite k off size value varOff =>
      by_cases hk : k = some key
      · subst hk
        simp only [symbolStore, if_true] at hr
        obtain ⟨vo, hvo, hr⟩ := bind_eq_ok.mp hr
        obtain ⟨v, hv, hr⟩ := bind_eq_ok.mp hr
        cases hr
        obtain ⟨hsize, hfit⟩ := hin _ (List.mem_singleton.mpr rfl)
        exact bssWrite_symbolBytes hn hsize hvo hv hfit h
      · simp only [symbolStore, hk, if_false] at hr
        cases hr
        exact hframe hk
  | bssAtomicAdd k off size value varOff old =>
      by_cases hk : k = some key
      · subst hk
        simp only [symbolStore, if_true] at hr
        obtain ⟨vo, hvo, hr⟩ := bind_eq_ok.mp hr
        obtain ⟨v, hv, hr⟩ := bind_eq_ok.mp hr
        cases hr
        obtain ⟨hsize, hfit⟩ := hin _ (List.mem_singleton.mpr rfl)
        exact bssAtomicAdd_symbolBytes hR hn hsize hvo hv hfit h
      · simp only [symbolStore, hk, if_false] at hr
        cases hr
        exact hframe hk
  | _ =>
      cases hr
      exact hframe nofun

theorem storesTo_symbolBytes (hR : Rereads R) (hn : n ≤ 2 ^ BSS_ADDR_BITS) {es : List Event}
    {rs : List SymbolStore} (h : StoresTo R blk m key st es rs st')
    (hin : ∀ r ∈ rs, r.InBounds n) :
    symbolBytes m key n st' = rs.foldl SymbolStore.step (symbolBytes m key n st) := by
  induction h with
  | nil st => rfl
  | cons hr hst h ih =>
      rw [List.foldl_append, ← event_symbolBytes hR hn hr (fun x hx => hin x (by simp [hx])) hst]
      exact ih fun x hx => hin x (by simp [hx])

/-- A read of a symbol that the hooks do not know has a term. -/
theorem bssVal_ok {block : Nat} {idx off : Int} {varOff : Option Expr} {vo : Option ZBv} {size : Nat}
    (hsize : 0 < size)
    (hfree : ∀ R', R = some R' →
      R'.readBss (.bssVal block idx (some key) off varOff size) = .ok none)
    (hvo : optToZ3 R blk st varOff = .ok vo) :
    ∃ t, exprToZ3 R blk st (.bssVal block idx (some key) off varOff size) = .ok t := by
  unfold exprToZ3
  cases R with
  | none =>
      dsimp only [bind, Except.bind, pure, Except.pure]
      rw [hvo]
      exact concatCells_ok _ _ hsize
  | some R' =>
      dsimp only [bind, Except.bind, pure, Except.pure]
      rw [hfree R' rfl, hvo]
      exact concatCells_ok _ _ hsize

end Run

theorem distinct_of_small {n : Nat} (key : String) (hn : n ≤ 2 ^ BSS_ADDR_BITS) :
    BytesDistinct key n := by
  intro maps R blk m st st' es rs hR hfresh hrun hin block idx off varOff vo size hsize hfree hvo hfit
  have hpos : 0 < size := by
    unfold IsAccess at hsize
    omega
  obtain ⟨t, ht⟩ := bssVal_ok hpos hfree hvo
  refine ⟨t, ht, ?_⟩
  have hzero : symbolBytes m key n st = fun _ => 0#8 := by
    unfold symbolBytes bssOf
    rw [Option.bind_some, hfresh]
    rfl
  obtain ⟨vo', hvo', hvalue⟩ := toNat_bssVal (m := m) hfree ht
  cases hvo.symm.trans hvo'
  rw [← hzero, ← storesTo_symbolBytes hR hn hrun hin, hvalue,
    ofInt_eq_machineOffset (by decide)]
  exact Bytes.getBytes_window _ hfit

section Alias

/-- One byte stored at the first offset that the addresses of the encoding cannot hold. -/
def farStore (key : String) : Event :=
  ⟨0, 0, .bssWrite (some key) (2 ^ BSS_ADDR_BITS) 1 (some (.num 1 1 (-1))) none⟩

def farArray : BssArray :=
  storeBytes (.constArray BSS_ADDR_BITS (bvVal 0 8)) (bvVal (2 ^ BSS_ADDR_BITS) BSS_ADDR_BITS) 1
    (resize ⟨8, bvVal 1 8⟩ 8)

theorem farStore_run (key : String) (m : ZModel) :
    StoresTo none none m key (makeInitState []) [farStore key] [.write (2 ^ 16) (Bytes.ofNat 1 1)]
      ((makeInitState []).setBss key farArray) := by
  have hone : symbolStore none none m key (makeInitState []) (farStore key).action =
      .ok (some (.write (2 ^ 16) (Bytes.ofNat 1 1))) := by
    have hplace : machineOffset (2 ^ BSS_ADDR_BITS) 0 = 2 ^ 16 := by decide
    have hvo : optToZ3 none none (makeInitState []) none = .ok none := rfl
    have hv : someToZ3 none none (makeInitState []) (some (.num 1 1 (-1))) =
        .ok ⟨8, bvVal 1 8⟩ := rfl
    have hbyte : Bv.toNat m ⟨8, bvVal 1 8⟩ = 1 := rfl
    simp only [symbolStore, farStore, if_true, hvo, hv]
    dsimp only [bind, Except.bind, varDist, Option.map_none, Option.getD_none]
    rw [hplace, hbyte]
    rfl
  exact .cons hone rfl (.nil _)

/-- The store beyond the addresses changes the first byte. -/
theorem aliased_of_large (key : String) {n : Nat} (hn : 2 ^ BSS_ADDR_BITS < n) :
    ¬ BytesDistinct key n := by
  intro h
  have hlarge : 2 ^ 16 < n := hn
  let m : ZModel := fun s _ => s.zero
  have hbounds : ∀ r ∈ [SymbolStore.write (2 ^ 16) (Bytes.ofNat 1 1)], r.InBounds n := by
    intro r hr
    obtain rfl := List.mem_singleton.mp hr
    exact ⟨.inl rfl, by omega⟩
  obtain ⟨t, ht, hvalue⟩ := h [] none none m _ _ _ _ nofun rfl (farStore_run key m) hbounds
    0 (-1) 0 none none 1 (.inl rfl) nofun rfl (by show 0 + 1 ≤ n; omega)
  have hread : t.toNat m = 1 := by
    obtain ⟨vo, hvo, hbytes⟩ := toNat_bssVal (R := none) (m := m) nofun ht
    cases hvo
    have harr : bssOf ((makeInitState []).setBss key farArray) (some key) = farArray := by
      simp [bssOf, Z3State.setBss]
    rw [hbytes, harr]
    decide +kernel
  have hzero : Bytes.toNat (([SymbolStore.write (2 ^ 16) (Bytes.ofNat 1 1)].foldl SymbolStore.step
      (fun _ => 0#8 : Bytes n)).field (machineOffset 0 (varDist m none)) 1) = 0 := by
    have hplace : machineOffset 0 (varDist m none) = 0 := rfl
    rw [hplace]
    simp [SymbolStore.step, Bytes.field, Bytes.splice, Bytes.toNat, joinNat]
  rw [hread, hzero] at hvalue
  cases hvalue

end Alias

/-- The bytes of a `.bss` symbol are distinct exactly when it has at most 2^16 of them. -/
theorem bss_distinct_iff (key : String) (n : Nat) : BytesDistinct key n ↔ n ≤ 2 ^ 16 := by
  constructor
  · intro h
    by_contra hlarge
    exact aliased_of_large key (by simpa [BSS_ADDR_BITS] using hlarge) h
  · exact distinct_of_small key

/-- In a symbol of 65537 bytes the last byte is the first. -/
theorem bss_aliases : ¬ BytesDistinct "buf" 65537 := aliased_of_large "buf" (by decide)

end Hornet
