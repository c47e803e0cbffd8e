import Hornet.Lib.Depend
import Hornet.Lib.Succeeds
import Hornet.Verify.Spec
import Hornet.Verify.Executed
import Hornet.Verify.SlicedMemory

/-!
What the lowering of a value in a finished walk depends on. A value depends on its operands,
a read of a folded region on the keys and the values of the writes that it is resolved from,
and a presence on the updates and deletes before it. A value is lowered exactly if nothing
without an encoding is among all these.
-/

namespace Hornet

open Smt Lib

theorem Guard.and_eq_ff {g g' : Guard} : g.and g' = .ff ↔ g = .ff ∨ g' = .ff := by
  cases g <;> cases g' <;> simp [Guard.and]

/-! ## Values -/

namespace Expr

/-- The values that a value is computed from where it stands. An absent slot of a byte
sequence is zero. -/
def operands : Expr → List (Option Expr)
  | .pktVal _ _ _ varOff _ | .bssVal _ _ _ _ varOff _ | .rodataVal _ _ varOff _ =>
      varOff.toList.map some
  | .mapVal _ _ _ mapKey _ _ varOff _ => mapKey :: varOff.toList.map some
  | .byteSeq chunks _ _ => chunks.filter (·.isSome)
  | .unary _ dst _ _ _ _ => [dst]
  | .binary _ dst src _ _ _ => [dst, src]
  | .funcRetval r => if r.redirects && r.mapId.isSome then r.mapKey.toList.map some else []
  | .lookupHit mapId mapKey _ => if mapId.isSome then mapKey.toList.map some else []
  | _ => []

/-- The arms of a join whose edges are not known to be left out. -/
def arms (guardOf : Edge → Guard) : Expr → List (Option Expr)
  | .joinValue _ _ values edges =>
      ((values.zip edges).filter fun x => Guard.orAll (x.2.map guardOf) ≠ .ff).map (·.1)
  | _ => []

/-- The map and the id of the key whose presence the value depends on. -/
def asksPresence : Expr → Option (Nat × Option Int)
  | .funcRetval r =>
      if r.redirects && r.mapKey.isSome then r.mapId.map fun id => (id, r.mapKeyId) else none
  | .lookupHit mapId mapKey mapKeyId =>
      if mapKey.isSome then mapId.map fun id => (id, mapKeyId) else none
  | _ => none

/-- A value without an encoding of its own, whatever its operands are: a pointer, no bytes at
all, a value of no map or before the start of one, or an operation that is none. -/
def lacksEncoding : Expr → Bool
  | .ptr _ => true
  | .pktVal _ _ _ _ size | .bssVal _ _ _ _ _ size | .rodataVal _ _ _ size => size = 0
  | .mapVal _ _ mapId _ _ off varOff _ => mapId.isNone || (varOff.isNone && off < 0)
  | .byteSeq chunks _ _ => chunks.isEmpty
  | .unary op _ _ _ _ _ => op ∉ [AluOp.NEG, .MOV, .END]
  | .binary op _ _ _ _ _ => op ∈ [AluOp.NEG, .MOV, .END, .code_e, .code_f]
  | _ => false

end Expr

/-- A part of a lowering. `fuel` is how many values deep reads of folded memory may still go,
`depth` how many updates deep a presence may. -/
inductive Part where
  /-- A value at block `blk`. -/
  | value (fuel : Nat) (blk : Option Nat) (e : Option Expr)
  /-- An operand of a write that a read is resolved from. -/
  | operand (fuel : Nat) (e : Option Expr)
  /-- A byte of folded memory, before an instruction or at the end of a block. -/
  | byte (fuel : Nat) (loc : Loc) (atBlock : Nat) (atIdx : Option Int)
  /-- The presence of a key of a folded map. -/
  | present (fuel depth : Nat) (mapId : Nat) (atBlock : Option Nat) (atIdx : Option Int)

/-- How a read is resolved: it was bound to a term, or it is looked up in the writes, or in the
state. -/
inductive Resolution where
  | bound
  | folded (loc : Loc) (block : Nat) (idx : Int)
  | direct

namespace ForwardContext

variable {maps : List MapInfo} (F : ForwardContext maps) (w : Walk maps)

/-- How a read outside of the folded regions is resolved. -/
def unfolded (e : Expr) : Resolution := if (memoGet w.memo e).isSome then .bound else .direct

/-- How a read is resolved. A read of the packet or of a variable at a variable offset is
always made in the state. -/
def resolution (e : Expr) : Resolution :=
  match e with
  | .pktVal block idx off varOff size =>
      if F.fold .pkt then
        if varOff.isSome then .direct else .folded ⟨.PKT, off, size, none, none, none⟩ block idx
      else unfolded w e
  | .mapVal block idx mapId mapKey _ off _ size =>
      if F.fold (.map mapId) then .folded ⟨.MAP, off, size, mapId, mapKey, none⟩ block idx
      else unfolded w e
  | .bssVal block idx key off varOff size =>
      if F.fold (.bss key) then
        if varOff.isSome then .direct else .folded ⟨.BSS, off, size, none, none, key⟩ block idx
      else unfolded w e
  | _ => .direct

/-- The presence that a lookup by the key `mapKeyId`, or one at block `blk`, refers to. -/
def presenceNeeds (fuel : Nat) (blk : Option Nat) (mapId : Nat) (mapKeyId : Option Int) :
    List Part :=
  if isArrayMap maps mapId || isProgMap maps mapId || !F.fold (.map (some mapId)) then []
  else
    match mapKeyId.bind F.lookupBlock with
    | some b => [.present fuel F.fuel mapId (some b) mapKeyId]
    | none => [.present fuel F.fuel mapId blk none]

/-- What decides whether a write takes effect: an update that depends on the presence of its
key needs the key, and where the map is no array its presence before the update. -/
def appliesNeeds (maps : List MapInfo) (fuel depth : Nat) (e : Event) : List Part :=
  match e.action with
  | .mapUpdate (some mapId) mapKey _ flags _ =>
      if flags.map (· % 4) = some 0 then []
      else .operand fuel mapKey :: if isArrayMap maps mapId then []
        else [.present fuel depth mapId (some e.block) (some e.idx)]
  | _ => []

/-- An update whose flags admit no key. -/
def neverApplies (e : Event) : Bool :=
  match e.action with
  | .mapUpdate (some _) _ _ flags _ => flags.map (· % 4) = some 3
  | _ => false

/-- The keys that are compared to find out whether a write is to the value of a location. -/
def keyNeeds (fuel : Nat) (loc : Loc) (e : Event) : List Part :=
  if loc.mapId.isNone || loc.region ≠ .MAP || neverApplies e then []
  else if (loc.mapKey.bind Expr.num?).isSome && (e.action.mapKey.bind Expr.num?).isSome then []
  else if loc.mapKey.isNone || e.action.mapKey.isNone then []
  else if Expr.sameOpt loc.mapKey e.action.mapKey then []
  else [.operand fuel loc.mapKey, .operand fuel e.action.mapKey]

/-- What a write that is looked through for a byte needs. -/
def writeNeeds (fuel : Nat) (loc : Loc) (e : Event) : List Part :=
  .operand fuel e.action.value ::
    (e.action.old.toList.map fun old => Part.operand fuel (some old)) ++
    appliesNeeds maps fuel F.fuel e ++ keyNeeds fuel loc e

/-- Whether an event may have run before the instruction, or before the end of the block. -/
def shown (atBlock : Nat) (atIdx : Option Int) (e : Event) : Bool :=
  (F.mem w fun _ => throw .recursionLimit).shown e atBlock atIdx

/-- The write has a constant offset, and the offset `off` is one of its bytes. -/
def covers (off : Int) (a : Action) : Bool :=
  a.varOff.isNone && (a.off ≤ off && off < a.off + max a.size 1)

/-- What a value needs that is resolved in one of the ways. -/
def valueNeeds (fuel : Nat) (blk : Option Nat) (e : Expr) : Resolution → List Part
  | .bound => []
  | .folded loc block idx => (List.range loc.size).map fun i =>
      .byte fuel { loc with off := loc.off + (i : Nat), size := 1 } block (some idx)
  | .direct =>
      e.operands.map (Part.value fuel blk) ++
        ((e.arms (edgeGuard w.info)).map (Part.value fuel none) ++
          e.asksPresence.toList.flatMap fun q => F.presenceNeeds fuel blk q.1 q.2)

/-- What a part needs directly. -/
def needs : Part → List Part
  | .value _ _ none => []
  | .value fuel blk (some e) => F.valueNeeds w fuel blk e (F.resolution w e)
  | .operand 0 _ => []
  | .operand (fuel + 1) e => [.value fuel none e]
  | .byte fuel loc atBlock atIdx =>
      (if loc.region = .MAP then [.operand fuel loc.mapKey] else []) ++
        ((F.blocks.flatMap (·.actions)).filter fun e => e.action.region.isSome &&
          (F.shown w atBlock atIdx e && mayAlias loc e.action && covers loc.off e.action)).flatMap
          (F.writeNeeds fuel loc)
  | .present _ 0 _ _ _ => []
  | .present _ (_ + 1) _ none _ => []
  | .present fuel (depth + 1) mapId (some atBlock) atIdx =>
      ((F.blocks.flatMap (·.actions)).filter fun e => e.action.presence.isSome &&
        (e.action.mapId = some mapId && F.shown w atBlock atIdx e)).flatMap fun e =>
          (e.action.mapKey.toList.map fun k => Part.operand fuel (some k)) ++
            appliesNeeds maps fuel depth e

/-- Whether a value that is resolved in one of the ways lacks an encoding by itself. -/
def valueLacking (e : Expr) : Resolution → Bool
  | .bound => false
  | .folded loc _ _ => loc.size = 0
  | .direct => e.lacksEncoding

/-- A part that cannot be lowered by itself: a value that is absent or has no encoding, a
byte of no map or before the start of a value, or one that is too deep. -/
def lacking : Part → Bool
  | .value _ _ none => true
  | .value _ _ (some e) => valueLacking e (F.resolution w e)
  | .operand fuel _ => fuel = 0
  | .byte _ loc _ _ =>
      loc.region = .CTX || (loc.region = .MAP && (loc.mapId.isNone || loc.off < 0))
  | .present _ depth _ _ _ => depth = 0

/-- Nothing without an encoding is among what the part depends on. -/
abbrev Encoded (p : Part) : Prop := Sound (F.needs w) (F.lacking w · = true) p

/-! ## The lowering of a part -/

/-- How the operands of writes are lowered under hooks of a depth. -/
def lowering : Nat → Expr → Except LowerError ZBv
  | 0, _ => throw .recursionLimit
  | fuel + 1, e => exprToZ3 (some (F.reads w fuel)) none F.initSt e

theorem reads_eq (fuel : Nat) : F.reads w fuel = F.readsWith w (F.lowering w fuel) := by
  cases fuel <;> rfl

/-- The memory that reads are resolved from under hooks of a depth. -/
abbrev memAt (fuel : Nat) : Memory maps := F.mem w (F.lowering w fuel)

/-- The lowering of a part in a state succeeds. -/
def LowersPart (st : Z3State maps) : Part → Prop
  | .value fuel blk e => Succeeds (someToZ3 (some (F.reads w fuel)) blk st e)
  | .operand fuel e => Succeeds ((F.memAt w fuel).lowerSome e)
  | .byte fuel loc atBlock atIdx =>
      Delivers ((F.memAt w fuel).byteAfter F.fuel loc (F.shown w atBlock atIdx))
  | .present fuel depth mapId atBlock atIdx =>
      Succeeds ((F.memAt w fuel).presentFuel depth mapId (.const 0#_) atBlock atIdx)

variable {F w} {st : Z3State maps} {fuel depth : Nat} {G : Part → Prop}

variable (st) in
theorem succeeds_key (mapId : Nat) {e : Option Expr} :
    Succeeds ((F.memAt w fuel).key mapId e) ↔ F.LowersPart w st (.operand fuel e) :=
  succeeds_map

theorem reachAt_of_shown {b : Nat} {i : Option Int} {e : Event} (h : F.shown w b i e = true) :
    w.reachAt e.block ≠ .ff := by
  cases i with
  | none => exact Memory.reachOf_of_ranBefore h
  | some i => exact Memory.reachOf_of_visible h

/-- A presence is found out from the keys of the updates and deletes before it, and from
whether these take effect. -/
theorem succeeds_presentFuel {mapId b : Nat} {i : Option Int}
    {key : ZTerm (.bv (keyBits maps mapId))} :
    Succeeds ((F.memAt w fuel).presentFuel (depth + 1) mapId key (some b) i) ↔
      ∀ e ∈ (F.memAt w fuel).presenceWrites,
        (e.action.mapId = some mapId && F.shown w b i e) = true →
          (∀ k, e.action.mapKey = some k → Succeeds ((F.memAt w fuel).key mapId (some k))) ∧
            Succeeds ((F.memAt w fuel).appliesWith ((F.memAt w fuel).presentFuel depth) e) := by
  unfold Memory.presentFuel
  dsimp only
  apply succeeds_foldlM
  intro e _ p
  change Succeeds (if (decide (e.action.mapId ≠ some mapId) || !F.shown w b i e) = true then pure p
    else _) ↔ _
  by_cases hskip : (e.action.mapId = some mapId && F.shown w b i e) = true
  · have hreach : (F.memAt w fuel).reachOf e.block ≠ .ff := by
      rw [Bool.and_eq_true] at hskip
      exact reachAt_of_shown hskip.2
    rw [if_neg (by simpa using hskip)]
    cases hkey : e.action.mapKey with
    | none =>
        dsimp only
        rw [pure_bind, if_neg hreach, succeeds_map]
        exact ⟨fun h _ => ⟨fun k hk => absurd hk.symm (Option.some_ne_none k), h⟩,
          fun h => (h hskip).2⟩
    | some k =>
        dsimp only
        rw [succeeds_then (p := Succeeds ((F.memAt w fuel).appliesWith
          ((F.memAt w fuel).presentFuel depth) e))]
        · exact ⟨fun h _ => ⟨fun k' hk' => Option.some.inj hk' ▸ h.1, h.2⟩,
            fun h => ⟨(h hskip).1 k rfl, (h hskip).2⟩⟩
        · intro t _
          have hg : ((F.memAt w fuel).reachOf e.block).and (.term (.cmp .eq t key)) ≠ .ff :=
            fun h => (Guard.and_eq_ff.mp h).elim hreach Guard.noConfusion
          rw [pure_bind, if_neg hg, succeeds_map]
  · rw [if_pos (by by_cases hid : e.action.mapId = some mapId <;> simp_all)]
    exact ⟨fun _ h => absurd h hskip, fun _ => succeeds_pure _⟩

/-- Which key is asked for does not matter. -/
theorem succeeds_presentFuel_key {mapId : Nat} {b : Option Nat} {i : Option Int}
    (key key' : ZTerm (.bv (keyBits maps mapId))) :
    Succeeds ((F.memAt w fuel).presentFuel depth mapId key b i) ↔
      Succeeds ((F.memAt w fuel).presentFuel depth mapId key' b i) := by
  cases depth with
  | zero => exact iff_of_false (not_succeeds_throw _) (not_succeeds_throw _)
  | succ depth =>
      cases b with
      | none => exact ⟨fun _ => succeeds_pure _, fun _ => succeeds_pure _⟩
      | some b => exact succeeds_presentFuel.trans succeeds_presentFuel.symm

/-- Whether an update takes effect is found out from its key and its presence. -/
theorem succeeds_appliesWith {e : Event}
    (hG : ∀ y ∈ appliesNeeds maps fuel depth e, ∀ st, F.LowersPart w st y ↔ G y) :
    Succeeds ((F.memAt w fuel).appliesWith ((F.memAt w fuel).presentFuel depth) e) ↔
      ∀ y ∈ appliesNeeds maps fuel depth e, G y := by
  unfold Memory.appliesWith
  unfold appliesNeeds at hG ⊢
  generalize e.action = a at hG ⊢
  cases a with
  | mapUpdate mapId mapKey value flags size =>
      cases mapId with
      | none => exact ⟨fun _ => nofun, fun _ => succeeds_pure _⟩
      | some mapId =>
          dsimp only at hG ⊢
          by_cases hflags : flags.map (· % 4) = some 0
          · rw [if_pos hflags, if_pos hflags]
            exact ⟨fun _ => nofun, fun _ => succeeds_pure _⟩
          · rw [if_neg hflags] at hG
            rw [if_neg hflags, if_neg hflags]
            rw [List.forall_mem_cons] at hG ⊢
            obtain ⟨hkey, hpresent⟩ := hG
            rw [← hkey F.initSt, ← succeeds_key F.initSt mapId]
            apply succeeds_then
            intro k _
            by_cases harray : isArrayMap maps mapId = true
            · rw [if_pos harray, if_pos harray]
              exact ⟨fun _ => nofun, fun _ => succeeds_pure _⟩
            · rw [if_neg harray, List.forall_mem_singleton] at hpresent
              rw [if_neg harray, if_neg harray, List.forall_mem_singleton, ← hpresent F.initSt]
              exact succeeds_map.trans (succeeds_presentFuel_key _ _)
  | _ => exact ⟨fun _ => nofun, fun _ => succeeds_pure _⟩

/-- The guard of an update is known to be false only if its flags admit no key. -/
theorem appliesWith_eq_ff {M : Memory maps} {present : (mapId : Nat) →
      ZTerm (.bv (keyBits maps mapId)) → Option Nat → Option Int → Except LowerError (ZTerm .bool)}
    {e : Event} {g : Guard} (h : M.appliesWith present e = .ok g) :
    g = .ff ↔ neverApplies e = true := by
  unfold Memory.appliesWith at h
  unfold neverApplies
  generalize e.action = a at h ⊢
  cases a with
  | mapUpdate mapId mapKey value flags size =>
      cases mapId with
      | none =>
          cases h
          exact ⟨nofun, nofun⟩
      | some mapId =>
          dsimp only at h ⊢
          rw [decide_eq_true_iff]
          rcases ite_eq_ok h with ⟨hflags, h⟩ | ⟨hflags, h⟩
          · cases h
            rw [hflags]
            exact ⟨nofun, nofun⟩
          · obtain ⟨k, -, h⟩ := bind_eq_ok.mp h
            have hupdate : ∃ p, g = updateApplies flags e.idx p := by
              rcases ite_eq_ok h with ⟨-, h⟩ | ⟨-, h⟩
              · exact ⟨_, (Except.ok.inj h).symm⟩
              · obtain ⟨p, -, h⟩ := bind_eq_ok.mp h
                exact ⟨p, (Except.ok.inj h).symm⟩
            obtain ⟨p, rfl⟩ := hupdate
            unfold updateApplies
            cases flags with
            | none => exact ⟨nofun, nofun⟩
            | some f =>
                rw [Option.map_some, Option.some_inj] at hflags ⊢
                dsimp only
                rw [if_neg hflags]
                split
                · exact ⟨nofun, by omega⟩
                · split
                  · exact ⟨nofun, by omega⟩
                  · exact ⟨fun _ => by omega, fun _ => rfl⟩
  | _ =>
      cases h
      exact ⟨nofun, nofun⟩

/-- The keys of a write and a location are compared unless that can be told from the
expressions. -/
theorem succeeds_writeGuard {loc : Loc} {e : Event} (hreach : w.reachAt e.block ≠ .ff)
    (hG : ∀ y ∈ appliesNeeds maps fuel F.fuel e ++ keyNeeds fuel loc e,
      ∀ st, F.LowersPart w st y ↔ G y) :
    Succeeds ((F.memAt w fuel).writeGuard F.fuel loc e) ↔
      ∀ y ∈ appliesNeeds maps fuel F.fuel e ++ keyNeeds fuel loc e, G y := by
  have hreach' : (F.memAt w fuel).reachOf e.block ≠ .ff := hreach
  unfold Memory.writeGuard
  dsimp only
  rw [if_neg hreach']
  rw [List.forall_mem_append] at hG ⊢
  rw [← succeeds_appliesWith hG.1]
  apply succeeds_then
  intro applies happlies
  have hff : ((F.memAt w fuel).reachOf e.block).and applies = .ff ↔ neverApplies e = true := by
    rw [Guard.and_eq_ff, ← appliesWith_eq_ff happlies]
    exact or_iff_right hreach'
  have hG := hG.2
  unfold keyNeeds at hG ⊢
  cases hid : loc.mapId with
  | none => exact ⟨fun _ => nofun, fun _ => succeeds_pure _⟩
  | some mapId =>
      have hskip : (loc.region ≠ .MAP || ((F.memAt w fuel).reachOf e.block).and applies = .ff) =
          (loc.mapId.isNone || loc.region ≠ .MAP || neverApplies e) := by
        rw [hid, decide_eq_decide.mpr hff, Bool.decide_coe]
        rfl
      rw [hid] at hskip hG
      dsimp only
      rw [hskip]
      by_cases hnone : ((some mapId).isNone || loc.region ≠ .MAP || neverApplies e) = true
      · rw [if_pos hnone, if_pos hnone]
        exact ⟨fun _ => nofun, fun _ => succeeds_pure _⟩
      · rw [if_neg hnone] at hG
        rw [if_neg hnone, if_neg hnone]
        split
        · exact ⟨fun _ => nofun, fun _ => succeeds_pure _⟩
        · rename_i hconst
          rw [if_neg hconst] at hG
          split
          · exact ⟨fun _ => nofun, fun _ => succeeds_pure _⟩
          · rename_i habsent
            rw [if_neg habsent] at hG
            split
            · exact ⟨fun _ => nofun, fun _ => succeeds_pure _⟩
            · rename_i hsame
              rw [if_neg hsame] at hG
              have ha := hG (.operand fuel loc.mapKey) (by simp) F.initSt
              have hb := hG (.operand fuel e.action.mapKey) (by simp) F.initSt
              rw [List.forall_mem_cons, List.forall_mem_singleton, ← ha, ← hb,
                ← succeeds_key F.initSt mapId, ← succeeds_key F.initSt mapId]
              exact succeeds_then fun _ _ => succeeds_map

/-- A write that does not cover an offset leaves nothing there. -/
theorem writtenByte_uncovered {M : Memory maps} {a : Action} {off : Int}
    (h : covers off a = false) : M.writtenByte a off = .ok none := by
  have hout : (a.varOff.isSome || !(a.off ≤ off && off < a.off + max a.size 1)) = true := by
    unfold covers at h
    rw [Bool.and_eq_false_iff] at h
    cases hvar : a.varOff with
    | none =>
        rw [hvar] at h
        rw [h.resolve_left nofun]
        rfl
    | some v => rfl
  unfold Memory.writtenByte
  rw [if_pos hout]
  rfl

/-- The byte of a write that covers the offset needs the values that are written. -/
theorem writtenByte_covered {M : Memory maps} {a : Action} {off : Int} (h : covers off a = true) :
    ∃ x : Except LowerError (ZTerm (.bv 8)),
      M.writtenByte a off = (x >>= fun v => pure (some v)) ∧
      (Succeeds x ↔
        Succeeds (M.lowerSome a.value) ∧ ∀ o, a.old = some o → Succeeds (M.lower o)) := by
  have hin : (a.varOff.isSome || !(a.off ≤ off && off < a.off + max a.size 1)) = false := by
    unfold covers at h
    rw [Bool.and_eq_true] at h
    rw [h.2, Option.isNone_iff_eq_none.mp h.1]
    rfl
  unfold Memory.writtenByte
  rw [hin, if_neg Bool.false_ne_true]
  cases a.old with
  | none =>
      refine ⟨M.lowerSome a.value >>= fun v =>
        pure (.extract ((off - a.off).toNat * 8) 8 (resize v (max a.size 1 * 8))), ?_, ?_⟩
      · simp only [bind_assoc, pure_bind]
      · rw [succeeds_map]
        exact ⟨fun hv => ⟨hv, fun o ho => absurd ho.symm (Option.some_ne_none o)⟩, fun hv => hv.1⟩
  | some o =>
      refine ⟨M.lowerSome a.value >>= fun v => M.lower o >>= fun old =>
        pure (.extract ((off - a.off).toNat * 8) 8
          (.bin .add (resize old (max a.size 1 * 8)) (resize v (max a.size 1 * 8)))), ?_, ?_⟩
      · simp only [bind_assoc, pure_bind]
      · apply succeeds_then
        intro v _
        simp only [succeeds_map, Option.some_inj, forall_eq']

/-- A byte is found out from what the writes that cover it leave there, and when. -/
theorem delivers_byteAfter {loc : Loc} {shown : Event → Bool} {M : Memory maps} :
    Delivers (M.byteAfter depth loc shown) ↔
      Delivers (M.initialAt loc) ∧
        ∀ e ∈ M.writes, (shown e && mayAlias loc e.action && covers loc.off e.action) = true →
          (Succeeds (M.lowerSome e.action.value) ∧
            ∀ o, e.action.old = some o → Succeeds (M.lower o)) ∧
          Succeeds (M.writeGuard depth loc e) := by
  unfold Memory.byteAfter
  refine delivers_some ?_ fun initial _ => ?_
  · exact not_delivers_none
  refine delivers_map.trans (succeeds_foldlM (fun e _ t => ?_) initial)
  cases hsh : shown e && mayAlias loc e.action with
  | false =>
      rw [Bool.and_eq_false_iff] at hsh
      rw [if_pos (by rcases hsh with h | h <;> simp [h])]
      exact iff_of_true (succeeds_pure _) fun h => absurd h Bool.false_ne_true
  | true =>
      rw [Bool.and_eq_true] at hsh
      rw [hsh.1, hsh.2, Bool.not_true, Bool.or_false, if_neg Bool.false_ne_true]
      cases hcov : covers loc.off e.action with
      | false =>
          rw [writtenByte_uncovered hcov]
          exact iff_of_true (succeeds_pure _) fun h => absurd h Bool.false_ne_true
      | true =>
          obtain ⟨x, hx, hsucceeds⟩ := writtenByte_covered (M := M) hcov
          rw [hx, ← hsucceeds, bind_assoc]
          simp only [pure_bind]
          rw [succeeds_then fun _ _ => succeeds_map]
          exact ⟨fun h _ => h, fun h => h rfl⟩

variable (st) in
/-- Where the byte of a location stands at the entry. -/
theorem delivers_initialAt {loc : Loc} :
    Delivers ((F.memAt w fuel).initialAt loc) ↔
      loc.region ≠ .CTX ∧ (loc.region = .MAP →
        (loc.mapId.isSome = true ∧ 0 ≤ loc.off) ∧ F.LowersPart w st (.operand fuel loc.mapKey)) := by
  unfold Memory.initialAt
  cases loc.region with
  | PKT | BSS => exact ⟨fun _ => ⟨nofun, nofun⟩, fun _ => delivers_pure _⟩
  | CTX => exact ⟨fun h => absurd h not_delivers_none, fun h => absurd rfl h.1⟩
  | MAP =>
      cases loc.mapId with
      | none => exact ⟨fun h => absurd h (not_delivers_throw _), fun h => nomatch (h.2 rfl).1.1⟩
      | some mapId =>
          dsimp only
          rw [delivers_then (p := 0 ≤ loc.off), succeeds_key st mapId]
          · exact ⟨fun h => ⟨nofun, fun _ => ⟨⟨rfl, h.2⟩, h.1⟩⟩, fun h => ⟨(h.2 rfl).2, (h.2 rfl).1.2⟩⟩
          · intro k _
            split
            · rename_i hneg
              exact ⟨fun h => absurd h (not_delivers_throw _), fun h => absurd hneg (not_lt.mpr h)⟩
            · rename_i hoff
              refine ⟨fun _ => not_lt.mp hoff, fun _ => ?_⟩
              split <;> exact delivers_pure _

/-! ## One step -/

/-- What a write needs that is looked through for a byte. -/
theorem lowers_write {loc : Loc} {e : Event} (hreach : w.reachAt e.block ≠ .ff)
    (hG : ∀ y ∈ F.writeNeeds fuel loc e, ∀ st, F.LowersPart w st y ↔ G y) :
    ((Succeeds ((F.memAt w fuel).lowerSome e.action.value) ∧
        ∀ o, e.action.old = some o → Succeeds ((F.memAt w fuel).lower o)) ∧
      Succeeds ((F.memAt w fuel).writeGuard F.fuel loc e)) ↔
      ∀ y ∈ F.writeNeeds fuel loc e, G y := by
  unfold writeNeeds at hG ⊢
  rw [List.append_assoc, List.forall_mem_append, List.forall_mem_cons, List.forall_mem_map] at hG
  obtain ⟨⟨hvalue, hold⟩, hguard⟩ := hG
  rw [List.append_assoc, List.forall_mem_append, List.forall_mem_cons, List.forall_mem_map,
    ← succeeds_writeGuard hreach hguard, ← hvalue F.initSt]
  apply and_congr_left'
  apply and_congr_right'
  constructor
  · intro h o ho
    rw [← hold o ho F.initSt]
    exact h o (Option.mem_toList.mp ho)
  · intro h o ho
    have hmem := Option.mem_toList.mpr ho
    exact (hold o hmem F.initSt).mpr (h o hmem)

/-- The writes that are looked through for a byte. -/
theorem lowers_writes {loc : Loc} {b : Nat} {i : Option Int} {es : List Event}
    (hG : ∀ y ∈ (es.filter fun e => e.action.region.isSome &&
        (F.shown w b i e && mayAlias loc e.action && covers loc.off e.action)).flatMap
      (F.writeNeeds fuel loc), ∀ st, F.LowersPart w st y ↔ G y) :
    (∀ e ∈ es.filter (·.action.region.isSome),
      (F.shown w b i e && mayAlias loc e.action && covers loc.off e.action) = true →
        (Succeeds ((F.memAt w fuel).lowerSome e.action.value) ∧
          ∀ o, e.action.old = some o → Succeeds ((F.memAt w fuel).lower o)) ∧
        Succeeds ((F.memAt w fuel).writeGuard F.fuel loc e)) ↔
      ∀ y ∈ (es.filter fun e => e.action.region.isSome &&
          (F.shown w b i e && mayAlias loc e.action && covers loc.off e.action)).flatMap
        (F.writeNeeds fuel loc), G y := by
  simp only [List.forall_mem_flatMap, List.forall_mem_filter, Bool.and_eq_true, and_imp] at hG ⊢
  apply forall₂_congr
  intro e he
  apply imp_congr_right
  intro hregion
  apply forall₃_congr
  intro hshown halias hcovers
  exact lowers_write (reachAt_of_shown hshown) (hG e he hregion hshown halias hcovers)

theorem lowers_byte {loc : Loc} {b : Nat} {i : Option Int}
    (hG : ∀ y ∈ F.needs w (.byte fuel loc b i), ∀ st, F.LowersPart w st y ↔ G y) :
    F.LowersPart w st (.byte fuel loc b i) ↔
      ¬ F.lacking w (.byte fuel loc b i) = true ∧ ∀ y ∈ F.needs w (.byte fuel loc b i), G y := by
  unfold needs at hG ⊢
  rw [List.forall_mem_append] at hG
  obtain ⟨hkey, hwrites⟩ := hG
  have hlacking : ¬ F.lacking w (.byte fuel loc b i) = true ↔
      loc.region ≠ .CTX ∧ (loc.region = .MAP → loc.mapId.isSome = true ∧ 0 ≤ loc.off) := by
    simp only [lacking, Bool.or_eq_true, Bool.and_eq_true, decide_eq_true_iff, not_or, not_and,
      Option.isNone_iff_eq_none, not_lt, Option.isSome_iff_ne_none, ne_eq]
  have hkeys : (loc.region = .MAP → F.LowersPart w st (.operand fuel loc.mapKey)) ↔
      ∀ y ∈ (if loc.region = .MAP then [Part.operand fuel loc.mapKey] else []), G y := by
    split at hkey
    · rename_i hmap
      rw [if_pos hmap, List.forall_mem_singleton, ← hkey _ (List.mem_singleton.mpr rfl) st]
      exact ⟨fun h => h hmap, fun h _ => h⟩
    · rename_i hmap
      rw [if_neg hmap]
      exact ⟨fun _ => nofun, fun _ h => absurd h hmap⟩
  rw [List.forall_mem_append, ← lowers_writes hwrites, ← hkeys, hlacking, and_assoc]
  change Delivers _ ↔ _
  rw [delivers_byteAfter, delivers_initialAt st]
  simp only [imp_and, and_assoc]
  rfl

/-- The updates and deletes that are looked through for a presence. -/
theorem lowers_presenceWrites {mapId b : Nat} {i : Option Int} {es : List Event}
    (hG : ∀ y ∈ (es.filter fun e => e.action.presence.isSome &&
        (e.action.mapId = some mapId && F.shown w b i e)).flatMap fun e =>
          (e.action.mapKey.toList.map fun k => Part.operand fuel (some k)) ++
            appliesNeeds maps fuel depth e, ∀ st, F.LowersPart w st y ↔ G y) :
    (∀ e ∈ es.filter (·.action.presence.isSome),
      (e.action.mapId = some mapId && F.shown w b i e) = true →
        (∀ k, e.action.mapKey = some k → Succeeds ((F.memAt w fuel).key mapId (some k))) ∧
          Succeeds ((F.memAt w fuel).appliesWith ((F.memAt w fuel).presentFuel depth) e)) ↔
      ∀ y ∈ (es.filter fun e => e.action.presence.isSome &&
        (e.action.mapId = some mapId && F.shown w b i e)).flatMap fun e =>
          (e.action.mapKey.toList.map fun k => Part.operand fuel (some k)) ++
            appliesNeeds maps fuel depth e, G y := by
  simp only [List.forall_mem_flatMap, List.forall_mem_filter, Bool.and_eq_true, and_imp,
    List.forall_mem_append, List.forall_mem_map, Option.mem_toList] at hG ⊢
  apply forall₂_congr
  intro e he
  apply forall₃_congr
  intro hpresence hmap hshown
  obtain ⟨hkey, happlies⟩ := hG e he hpresence hmap hshown
  rw [succeeds_appliesWith happlies]
  apply and_congr_left'
  apply forall₂_congr
  intro k hk
  rw [succeeds_key F.initSt mapId, hkey k hk]

theorem lowers_present {mapId : Nat} {b : Option Nat} {i : Option Int}
    (hG : ∀ y ∈ F.needs w (.present fuel depth mapId b i), ∀ st, F.LowersPart w st y ↔ G y) :
    F.LowersPart w st (.present fuel depth mapId b i) ↔
      ¬ F.lacking w (.present fuel depth mapId b i) = true ∧
        ∀ y ∈ F.needs w (.present fuel depth mapId b i), G y := by
  cases depth with
  | zero => exact ⟨fun h => absurd h (not_succeeds_throw _), fun h => absurd rfl h.1⟩
  | succ depth =>
      have hlacking : F.lacking w (.present fuel (depth + 1) mapId b i) = false := rfl
      rw [hlacking, and_iff_right Bool.false_ne_true]
      cases b with
      | none => exact ⟨fun _ => nofun, fun _ => succeeds_pure _⟩
      | some b => exact succeeds_presentFuel.trans (lowers_presenceWrites hG)

theorem lowers_operand {e : Option Expr}
    (hG : ∀ y ∈ F.needs w (.operand fuel e), ∀ st, F.LowersPart w st y ↔ G y) :
    F.LowersPart w st (.operand fuel e) ↔
      ¬ F.lacking w (.operand fuel e) = true ∧ ∀ y ∈ F.needs w (.operand fuel e), G y := by
  cases fuel with
  | zero =>
      refine ⟨fun h => ?_, fun h => absurd rfl h.1⟩
      cases e <;> exact absurd h (not_succeeds_throw _)
  | succ fuel =>
      have hneeds : F.LowersPart w F.initSt (.value fuel none e) ↔ G (.value fuel none e) :=
        hG _ (List.mem_singleton.mpr rfl) F.initSt
      have hlacking : F.lacking w (.operand (fuel + 1) e) = false := rfl
      unfold needs
      rw [hlacking, and_iff_right Bool.false_ne_true, List.forall_mem_singleton, ← hneeds]
      cases e with
      | none => exact iff_of_false (not_succeeds_throw _) (not_succeeds_throw _)
      | some e => exact Iff.rfl

end ForwardContext

end Hornet
