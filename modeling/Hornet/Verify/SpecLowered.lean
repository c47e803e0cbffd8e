import Hornet.Verify.LastWrite
import Hornet.Verify.SpecComplete

/-!
Which accepted specifications are lowered in a walk: those whose atoms are complete and do not
depend on anything without an encoding, at the end of each block that their conditions apply to.
-/

namespace Hornet

open Lib Smt

/-! ## What an atom asks of the end of a block -/

section Asks

variable {maps : List MapInfo}

/-- The condition is asked of the end of block `b`. -/
structure CondState.IsAt (F : ForwardContext maps) (w : Walk maps) (b : Nat) (st : CondState maps) :
    Prop where
  reads : st.reads = F.hooked w
  block : st.block = some b
  readLoc : st.readLoc = F.readLoc w b

namespace ForwardContext

variable (F : ForwardContext maps) (w : Walk maps)

/-- The parts that an answer at the end of block `b` is lowered from. A byte outside of the
folded regions is read from the state. -/
def askParts (b : Nat) : Ask → List Part
  | .byte loc => if F.fold loc.stateRegion then [.byte (F.fuel + 1) loc b none] else []
  | .value e => [.value F.fuel (some b) (some e)]
  | .hit (some mapId) (some key) mapKeyId =>
      .value F.fuel (some b) (some key) :: F.presenceNeeds F.fuel (some b) mapId mapKeyId
  | .hit _ _ _ => []

/-- Nothing that the atom asks for at the end of block `b` depends on something without an
encoding. -/
def EncodedAt (b : Nat) (atom : SpecAtom) : Prop :=
  ∀ q ∈ atom.asks, ∀ p ∈ F.askParts b q, F.Encoded w p

/-- Bytes that are asked for: of the packet, of a variable, or of the value of a constant key. -/
def Addressed (loc : Loc) : Prop :=
  loc.region = .PKT ∨ loc.region = .BSS ∨
    (loc.region = .MAP ∧ 0 ≤ loc.off ∧
      ∃ mapId n size idx, loc.mapId = some mapId ∧ loc.mapKey = some (.num n size idx))

variable {F w} {st : CondState maps} {b : Nat}

/-- A byte of a folded region is the one after the writes before the end of the block. -/
theorem succeeds_folded_byte {loc : Loc} :
    Succeeds (do
      match ← (F.mem w (exprToZ3 (F.hooked w) none F.initSt)).locByte F.fuel loc b with
      | some t => pure t
      | none => throw LowerError.noEncoding) ↔ F.Encoded w (.byte (F.fuel + 1) loc b none) := by
  rw [← lowers_iff_encoded F.initSt, succeeds_bind]
  constructor
  · rintro ⟨r, hr, h⟩
    cases r with
    | none => exact absurd h (not_succeeds_throw _)
    | some t => exact ⟨t, hr⟩
  · rintro ⟨t, ht⟩
    exact ⟨some t, ht, succeeds_pure t⟩

theorem answers_byte (hst : st.IsAt F w b) {loc : Loc} (hloc : Addressed loc) :
    st.Answers (.byte loc) ↔ ∀ p ∈ F.askParts b (.byte loc), F.Encoded w p := by
  unfold CondState.Answers askParts
  dsimp only
  rw [hst.readLoc]
  unfold readLoc Loc.stateRegion
  dsimp only
  rcases hloc with hloc | hloc | ⟨hloc, hoff, mapId, n, size, idx, hid, hkey⟩
  · rw [hloc]
    dsimp only
    cases F.fold .pkt with
    | true => exact succeeds_folded_byte.trans List.forall_mem_singleton.symm
    | false => exact ⟨fun _ => nofun, fun _ => succeeds_pure _⟩
  · rw [hloc]
    dsimp only
    cases F.fold (.bss loc.bssKey) with
    | true => exact succeeds_folded_byte.trans List.forall_mem_singleton.symm
    | false => exact ⟨fun _ => nofun, fun _ => succeeds_pure _⟩
  · rw [hloc]
    dsimp only
    cases F.fold (.map loc.mapId) with
    | true => exact succeeds_folded_byte.trans List.forall_mem_singleton.symm
    | false =>
        refine ⟨fun _ => nofun, fun _ => ?_⟩
        rw [hid, hkey, if_neg nofun]
        dsimp only [exprToZ3]
        rw [pure_bind, if_neg (not_lt.mpr hoff)]
        exact succeeds_pure _

theorem answers_value (hst : st.IsAt F w b) {e : Expr} :
    st.Answers (.value e) ↔ ∀ p ∈ F.askParts b (.value e), F.Encoded w p := by
  unfold CondState.Answers
  dsimp only
  rw [hst.reads, hst.block]
  exact (lowers_iff_encoded _ (p := .value F.fuel (some b) (some e))).trans
    List.forall_mem_singleton.symm

theorem answers_hit (hst : st.IsAt F w b) {mapId : Option Nat} {key : Option Expr}
    {mapKeyId : Option Int} :
    st.Answers (.hit mapId key mapKeyId) ↔
      ∀ p ∈ F.askParts b (.hit mapId key mapKeyId), F.Encoded w p := by
  unfold CondState.Answers Condition.toZ3
  cases mapId with
  | none => exact ⟨fun _ => nofun, fun _ => succeeds_pure _⟩
  | some id =>
      cases key with
      | none => exact ⟨fun _ => nofun, fun _ => succeeds_pure _⟩
      | some k =>
          dsimp only
          rw [hst.reads, hst.block]
          have hvalue : Succeeds (exprToZ3 (F.hooked w) (some b) st.sigma k) ↔
              F.Encoded w (.value F.fuel (some b) (some k)) :=
            lowers_iff_encoded _ (p := .value F.fuel (some b) (some k))
          unfold askParts
          rw [List.forall_mem_cons, ← hvalue]
          apply succeeds_then
          intro t _
          rw [succeeds_map]
          exact succeeds_containTerm fun y _ st => lowers_iff_encoded st

end ForwardContext

/-- What an atom asks for is addressed. -/
theorem addressed_asks {atom : SpecAtom} {loc : Loc} (h : Ask.byte loc ∈ atom.asks) :
    ForwardContext.Addressed loc := by
  unfold SpecAtom.asks askBytes at h
  cases atom with
  | pkt offset size data op =>
      obtain ⟨i, -, hi⟩ := List.mem_map.mp h
      cases hi
      exact .inl rfl
  | bss sym offset size value op =>
      obtain ⟨i, -, hi⟩ := List.mem_map.mp h
      cases hi
      exact .inr (.inl rfl)
  | map mapId key present value keySize valueSize =>
      rcases List.mem_cons.mp h with h | h
      · cases h
      · split at h
        · obtain ⟨i, -, hi⟩ := List.mem_map.mp h
          cases hi
          exact .inr (.inr ⟨rfl, by simp, _, _, _, _, rfl, rfl⟩)
        · cases h
  | len | scalar | ret => cases h
  | helperScalar | helperNull => cases List.mem_singleton.mp h
  | read parts op target size region offset mapId =>
      obtain ⟨part, -, hpart⟩ := List.mem_map.mp h
      cases hpart

/-- The end of a block answers what an atom asks exactly if that depends on nothing without an
encoding. -/
theorem answers_iff_encodedAt {F : ForwardContext maps} {w : Walk maps} {b : Nat}
    {st : CondState maps} (hst : st.IsAt F w b) {atom : SpecAtom} :
    (∀ q ∈ atom.asks, st.Answers q) ↔ F.EncodedAt w b atom := by
  apply forall₂_congr
  intro q hq
  cases q with
  | byte loc => exact ForwardContext.answers_byte hst (addressed_asks hq)
  | value e => exact ForwardContext.answers_value hst
  | hit mapId key mapKeyId => exact ForwardContext.answers_hit hst

end Asks

/-! ## Specifications -/

/-- The entries of a section, without its notes. -/
def sectionEntries (key : String) : Json → List (String × Json)
  | .obj raw =>
      match Json.get raw key with
      | some (.obj es) => named es
      | _ => []
  | _ => []

theorem parseSection_entries {C : Type} {parse : String → Json → Option C}
    {raw : List (String × Json)} {key : String} {cs : List C}
    (h : parseSection parse ((Json.get raw key).getD .null) = some cs) :
    (sectionEntries key (.obj raw)).mapM (fun x => parse x.1 x.2) = some cs := by
  unfold sectionEntries
  dsimp only
  cases hsection : Json.get raw key with
  | none =>
      rw [hsection] at h
      exact h
  | some v =>
      rw [hsection, Option.getD_some] at h
      cases v with
      | obj es =>
          rw [parseSection_obj] at h
          exact h
      | _ =>
          unfold parseSection at h
          split at h
          · exact h
          · cases h

section Lowered

variable {maps : List MapInfo} (F : ForwardContext maps) (w : Walk maps)
  (numeral : Json → Option Int) (defs : Option (List MapDef))
  (calls : Option (Dict Int CallRecord))

/-- The block was walked and is not known to be unreachable. -/
def Walk.live (block : Nat) : Prop := (w.info block).isSome = true ∧ w.reachAt block ≠ .ff

/-- The states at the exits that have a return value. -/
def ForwardContext.AtExit (st : CondState maps) : Prop :=
  ∃ b ∈ F.liveExits w, F.exitState w b = .ok (some st)

/-- The conditions of the policy have formulas wherever they apply. -/
structure ForwardContext.Lowers (p : Policy) : Prop where
  blocks : ∀ bc ∈ p.blockConditions, w.live bc.block.toNat →
    Succeeds (bc.cond.toZ3 numeral (F.condState w bc.block.toNat))
  exits : ∀ ec ∈ p.exitConditions, ∀ st, F.AtExit w st → Succeeds (ec.cond.toZ3 numeral st)

/-- The atom is complete, and depends on nothing without an encoding at the end of block `b`. -/
def ForwardContext.AtomEncoded (blocks : Option (List Block)) (block : Option Int) (b : Nat)
    (a : List (String × Json)) : Prop :=
  AtomComplete numeral defs a ∧
    ∀ atom, parseAtom defs calls blocks block a = some atom → F.EncodedAt w b atom

/-- What a condition of a block asks at its end is complete and encoded. -/
def ForwardContext.BlockEncoded (v : Json) : Prop :=
  ∀ node, v = .obj node → ∀ block, (Json.get node "block").bind Json.toInt = some block →
    w.live block.toNat → ∀ a ∈ condAtoms (nodeCond node),
      F.AtomEncoded w numeral defs calls (some F.blocks) (some block) block.toNat a

/-- What a condition of the exits asks at each of them that returns a value is complete and
encoded. -/
def ForwardContext.ExitEncoded (v : Json) : Prop :=
  ∀ node, v = .obj node → ∀ b ∈ F.liveExits w, ∀ st, F.exitState w b = .ok (some st) →
    ∀ a ∈ condAtoms (nodeCond node), F.AtomEncoded w numeral defs calls none none b a

/-- What the conditions of a specification ask where they apply is complete and encoded. -/
structure ForwardContext.SpecEncoded (raw : Json) : Prop where
  blocks : ∀ x ∈ sectionEntries "block_conditions" raw, F.BlockEncoded w numeral defs calls x.2
  exits : ∀ x ∈ sectionEntries "exit_conditions" raw, F.ExitEncoded w numeral defs calls x.2

variable {F w numeral defs calls}

theorem isAt_condState (b : Nat) : (F.condState w b).IsAt F w b := ⟨rfl, rfl, rfl⟩

theorem isAt_exitState {b : Nat} {st : CondState maps} (h : F.exitState w b = .ok (some st)) :
    st.IsAt F w b := by
  unfold ForwardContext.exitState at h
  obtain ⟨r0, -, h⟩ := bind_eq_ok.mp h
  cases r0 with
  | none => cases h
  | some r0 =>
      cases h
      exact ⟨rfl, rfl, rfl⟩

/-- A condition is lowered at the end of a block if what it asks there is complete and
encoded. -/
theorem succeeds_cond_iff {blocks : Option (List Block)} {block : Option Int} {b : Nat}
    {st : CondState maps} (hst : st.IsAt F w b) {c : Json} {cond : SpecCond}
    (h : parseCond defs calls blocks block c = some cond) :
    Succeeds (cond.toZ3 numeral st) ↔ ∀ a ∈ condAtoms c,
      F.AtomEncoded w numeral defs calls blocks block b a := by
  rw [succeeds_parseCond h]
  apply forall₂_congr
  intro a _
  apply and_congr_right'
  exact forall₂_congr fun atom _ => answers_iff_encodedAt hst

theorem lowers_blockCondition {name : String} {v : Json} {bc : SpecBlockCondition}
    (h : parseBlockCondition defs calls (some F.blocks) name v = some bc) :
    (w.live bc.block.toNat → Succeeds (bc.cond.toZ3 numeral (F.condState w bc.block.toNat))) ↔
      F.BlockEncoded w numeral defs calls v := by
  cases v with
  | obj node =>
      unfold parseBlockCondition at h
      obtain ⟨block, hblock, h⟩ := Option.bind_eq_some_iff.mp h
      obtain ⟨-, -, h⟩ := Option.bind_eq_some_iff.mp h
      obtain ⟨mode, -, h⟩ := Option.bind_eq_some_iff.mp h
      obtain ⟨cond, hcond, rfl⟩ := Option.map_eq_some_iff.mp h
      dsimp only
      rw [succeeds_cond_iff (isAt_condState _) hcond]
      constructor
      · intro hall node' hnode block' hblock'
        obtain rfl := Json.obj.inj hnode
        obtain rfl := Option.some.inj (hblock.symm.trans hblock')
        exact hall
      · intro hall
        exact hall node rfl block hblock
  | _ => cases h

theorem lowers_exitCondition {name : String} {v : Json} {ec : SpecExitCondition}
    (h : parseExitCondition defs calls name v = some ec) :
    (∀ st, F.AtExit w st → Succeeds (ec.cond.toZ3 numeral st)) ↔
      F.ExitEncoded w numeral defs calls v := by
  cases v with
  | obj node =>
      unfold parseExitCondition at h
      obtain ⟨mode, -, h⟩ := Option.bind_eq_some_iff.mp h
      obtain ⟨cond, hcond, rfl⟩ := Option.map_eq_some_iff.mp h
      constructor
      · intro hall node' hnode b hb st hst
        obtain rfl := Json.obj.inj hnode
        exact (succeeds_cond_iff (isAt_exitState hst) hcond).mp (hall st ⟨b, hb, hst⟩)
      · rintro hall st ⟨b, hb, hst⟩
        exact (succeeds_cond_iff (isAt_exitState hst) hcond).mpr (hall node rfl b hb st hst)
  | _ => cases h

theorem lowers_policy {G : Type} {scapy : Scapy G} {raw : Json} {p : Policy}
    (h : parseSpec defs calls (some F.blocks) scapy raw = some p) :
    F.Lowers w numeral p ↔ F.SpecEncoded w numeral defs calls raw := by
  cases raw with
  | obj es =>
      unfold parseSpec at h
      dsimp only at h
      split at h
      · cases h
      · split at h
        · cases h
        · obtain ⟨input, -, h⟩ := Option.bind_eq_some_iff.mp h
          obtain ⟨bcs, hbcs, h⟩ := Option.bind_eq_some_iff.mp h
          obtain ⟨ecs, hecs, rfl⟩ := Option.map_eq_some_iff.mp h
          have hblocks := forall_mapM_iff (parseSection_entries hbcs)
            (P := fun bc => w.live bc.block.toNat →
              Succeeds (bc.cond.toZ3 numeral (F.condState w bc.block.toNat)))
            (Q := fun x => F.BlockEncoded w numeral defs calls x.2)
            fun x _ bc hbc => lowers_blockCondition hbc
          have hexits := forall_mapM_iff (parseSection_entries hecs)
            (P := fun ec => ∀ st, F.AtExit w st → Succeeds (ec.cond.toZ3 numeral st))
            (Q := fun x => F.ExitEncoded w numeral defs calls x.2)
            fun x _ ec hec => lowers_exitCondition hec
          constructor
          · intro hall
            exact ⟨hblocks.mp hall.blocks, hexits.mp hall.exits⟩
          · intro hall
            exact ⟨hblocks.mpr hall.blocks, hexits.mpr hall.exits⟩
  | _ => cases h

end Lowered

/-- An accepted specification is lowered wherever its conditions apply exactly if what its
atoms ask there is complete and depends on nothing without an encoding, and an atom is accepted
or rejected by the parser's own error exactly if it is readable. -/
theorem accepted_lowered_iff {maps : List MapInfo} (F : ForwardContext maps) (w : Walk maps)
    (numeral : Json → Option Int) (defs : Option (List MapDef))
    (calls : Option (Dict Int CallRecord)) {G : Type} (scapy : Scapy G) (raw : Json) :
    (∀ p, parseSpec defs calls (some F.blocks) scapy raw = some p →
      (F.Lowers w numeral p ↔ F.SpecEncoded w numeral defs calls raw)) ∧
    ∀ (blocks : Option (List Block)) (block : Option Int) (a : List (String × Json)),
      Clean (Raising.parseAtom defs calls blocks block a) ↔
        AtomReadable defs calls blocks block a :=
  ⟨fun _ h => lowers_policy h, fun _ _ _ => clean_parseAtom⟩

/-- The first byte of the packet is 7. -/
def firstByteSeven : List (String × Json) :=
  [("offset", .int 0), ("size", .int 1), ("value", .int 7)]

/-- `{"offset": 0, "size": 1, "value": 7}` at the exit of `markByte` is accepted, and lowered
where the packet is folded: the byte is that of the write in the branch. -/
theorem accepted_lowered_iff_mark : ∃ p w,
    (foldContext markByte [0, 1, 2]).walk [0, 1, 2] = .ok w ∧
    (foldContext markByte [0, 1, 2]).liveExits w = [2] ∧
    parseSpec none none (some (trackedOf markByte)) noScapy (exitSpec [] (.obj firstByteSeven)) =
      some p ∧
    (foldContext markByte [0, 1, 2]).Lowers w (fun _ => none) p := by
  have hrun : okAnd ((foldContext markByte [0, 1, 2]).walk [0, 1, 2]) (fun w =>
      (foldContext markByte [0, 1, 2]).liveExits w = [2] &&
      searchSound ((foldContext markByte [0, 1, 2]).needs w)
        ((foldContext markByte [0, 1, 2]).lacking w) 4
        (.byte 3 ⟨.PKT, 0, 1, none, none, none⟩ 2 none)) = true := by
    decide +kernel
  obtain ⟨w, hw, hrun⟩ := okAnd_eq_true hrun
  rw [Bool.and_eq_true, decide_eq_true_iff] at hrun
  obtain ⟨hexits, hsound⟩ := hrun
  obtain ⟨p, hp⟩ : ∃ p, parseSpec none none (some (trackedOf markByte)) noScapy
      (exitSpec [] (.obj firstByteSeven)) = some p := ⟨_, rfl⟩
  refine ⟨p, w, hw, hexits, hp, ?_⟩
  apply ((accepted_lowered_iff (foldContext markByte [0, 1, 2]) w (fun _ => none) none none noScapy
    _).1 p hp).mpr
  constructor
  · exact nofun
  · intro x hx node hnode b hb st _ a ha
    obtain rfl : x = ("pass", .obj [("cond", .obj firstByteSeven)]) := List.mem_singleton.mp hx
    obtain rfl := Json.obj.inj hnode
    obtain rfl : a = firstByteSeven := List.mem_singleton.mp ha
    rw [hexits] at hb
    obtain rfl := List.mem_singleton.mp hb
    refine ⟨trivial, fun atom hatom q hq p hp => ?_⟩
    obtain rfl : SpecAtom.pkt 0 1 [7] .eq = atom := Option.some.inj hatom
    obtain rfl := List.mem_singleton.mp hq
    obtain rfl := List.mem_singleton.mp hp
    exact sound_of_searchSound hsound

/-- `{"pkt_len": {}}` is accepted although no state has a formula for it, and
`{"ctx": "ingress_ifindex"}` lets an error of Python escape. -/
theorem accepted_lowered_violated :
    (∃ p w st, (plainContext (trackedBlocks (returnInstrs 2))).walk [0] = .ok w ∧
      parseSpec none none (some (trackedBlocks (returnInstrs 2))) noScapy
        (exitSpec [] (.obj [("pkt_len", .obj [])])) = some p ∧
      (plainContext (trackedBlocks (returnInstrs 2))).AtExit w st ∧
      ∃ ec ∈ p.exitConditions, ∀ numeral, ¬ Succeeds (ec.cond.toZ3 numeral st)) ∧
    ¬ Clean (Raising.parseAtom none none none none [("ctx", .str "ingress_ifindex")]) := by
  obtain ⟨w, st, hw, hlive, hst⟩ : ∃ w st,
      (plainContext (trackedBlocks (returnInstrs 2))).walk [0] = .ok w ∧
      (plainContext (trackedBlocks (returnInstrs 2))).liveExits w = [0] ∧
      (plainContext (trackedBlocks (returnInstrs 2))).exitState w 0 = .ok (some st) :=
    ⟨_, _, rfl, rfl, rfl⟩
  refine ⟨⟨⟨none, [], [⟨"pass", .exists, .leaf (.len .null .null)⟩]⟩, w, st, hw, rfl,
    ⟨0, by rw [hlive]; exact List.mem_singleton.mpr rfl, hst⟩, _, List.mem_singleton.mpr rfl, ?_⟩, ?_⟩
  · intro numeral h
    have hcomplete := (succeeds_toZ3.mp h).1
    exact absurd hcomplete.1 (by decide)
  · exact not_clean_escaped

end Hornet
