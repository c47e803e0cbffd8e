import Mathlib.Data.Prod.Lex
import Hornet.Verify.Parts

/-!
A part of a lowering in a finished walk succeeds exactly if nothing without an encoding is
among what it depends on.
-/

namespace Hornet

open Smt Lib

section Cells

theorem succeeds_concatCells {cells : List ZBv} : Succeeds (concatCells cells) ↔ cells ≠ [] := by
  cases cells with
  | nil => exact ⟨fun h => absurd h (not_succeeds_throw _), fun h => absurd rfl h⟩
  | cons b bs => exact ⟨fun _ => nofun, fun _ => ⟨_, rfl⟩⟩

theorem succeeds_selectBytes {d : Nat} {arr : ZTerm (.array d (.bv 8))} {base : ZTerm (.bv d)}
    {size : Nat} : Succeeds (concatCells (selectBytes arr base size)) ↔ size ≠ 0 := by
  rw [succeeds_concatCells, selectBytes, Ne, List.map_eq_nil_iff, List.bind_eq_flatMap,
    List.flatMap_eq_nil_iff]
  constructor
  · rintro h rfl
    exact h (by simp)
  · intro hsize h
    exact List.cons_ne_nil _ _ (h 0 (List.mem_range.mpr (Nat.pos_of_ne_zero hsize)))

end Cells

namespace ForwardContext

variable {maps : List MapInfo} {F : ForwardContext maps} {w : Walk maps} {st : Z3State maps}
  {fuel depth : Nat} {G : Part → Prop}

/-! ## Folded reads and presences -/

/-- Only the context has no byte at the entry. -/
theorem initialAt_none {M : Memory maps} {loc : Loc} (h : M.initialAt loc = .ok none) :
    loc.region = .CTX := by
  unfold Memory.initialAt at h
  cases hregion : loc.region with
  | CTX => rfl
  | PKT | BSS =>
      rw [hregion] at h
      cases h
  | MAP =>
      rw [hregion] at h
      cases hid : loc.mapId with
      | none =>
          rw [hid] at h
          cases h
      | some mapId =>
          rw [hid] at h
          obtain ⟨k, -, h⟩ := bind_eq_ok.mp h
          rcases ite_eq_ok h with ⟨-, h⟩ | ⟨-, h⟩
          · cases h
          · rcases ite_eq_ok h with ⟨-, h⟩ | ⟨-, h⟩ <;> cases h

/-- A byte of memory that is not of the context is there once it can be lowered. -/
theorem byteAfter_isSome {M : Memory maps} {loc : Loc} {shown : Event → Bool}
    {r : Option (ZTerm (.bv 8))} (hloc : loc.region ≠ .CTX)
    (h : M.byteAfter depth loc shown = .ok r) : r.isSome = true := by
  unfold Memory.byteAfter at h
  obtain ⟨initial, hinitial, h⟩ := bind_eq_ok.mp h
  cases initial with
  | none => exact absurd (initialAt_none hinitial) hloc
  | some t =>
      obtain ⟨t', -, h⟩ := bind_eq_ok.mp h
      cases h
      rfl

variable (st) in
/-- A read that is resolved from the writes needs each of its bytes. -/
theorem succeeds_folded {loc : Loc} {block : Nat} {idx : Int} (hloc : loc.region ≠ .CTX)
    {rest : Except LowerError ZBv} :
    Succeeds (do
      match ← (F.memAt w fuel).read F.fuel loc block idx with
      | some t => pure t
      | none => rest) ↔
      loc.size ≠ 0 ∧ ∀ i ∈ List.range loc.size,
        F.LowersPart w st
          (.byte fuel { loc with off := loc.off + (i : Nat), size := 1 } block (some idx)) := by
  have hbytes : (∀ i ∈ List.range loc.size, F.LowersPart w st
        (.byte fuel { loc with off := loc.off + (i : Nat), size := 1 } block (some idx))) ↔
      ∀ i ∈ List.range loc.size, Succeeds ((F.memAt w fuel).byteAfter F.fuel
        { loc with off := loc.off + (i : Nat), size := 1 }
          ((F.memAt w fuel).visible · block idx)) := by
    apply forall₂_congr
    intro i _
    constructor
    · rintro ⟨t, ht⟩
      exact ⟨_, ht⟩
    · rintro ⟨r, hr⟩
      have hregion : ({ loc with off := loc.off + (i : Nat), size := 1 } : Loc).region ≠ .CTX := hloc
      obtain ⟨t, rfl⟩ := Option.isSome_iff_exists.mp (byteAfter_isSome hregion hr)
      exact ⟨t, hr⟩
  rw [hbytes, and_comm]
  unfold Memory.read
  rw [bind_assoc, ← succeeds_mapM]
  apply succeeds_then
  intro cells hcells
  obtain ⟨ts, rfl, hlen⟩ := mapM_ok_some hcells fun i _ r hr => by
    have hregion : ({ loc with off := loc.off + (i : Nat), size := 1 } : Loc).region ≠ .CTX := hloc
    exact byteAfter_isSome hregion hr
  rw [mapM_id_map_some]
  simp only [bind_assoc, pure_bind]
  rw [succeeds_map, succeeds_concatCells, ne_eq, List.map_eq_nil_iff, ← List.length_eq_zero_iff, hlen,
    List.length_range]

/-- Whether a lookup hits is found out from the presence of its key. -/
theorem succeeds_containTerm {mapId : Nat} {blk : Option Nat} {key : ZBv} {mapKeyId : Option Int}
    {result : Bool}
    (hG : ∀ y ∈ F.presenceNeeds fuel blk mapId mapKeyId, ∀ st, F.LowersPart w st y ↔ G y) :
    Succeeds (containTerm (some (F.reads w fuel)) blk st mapId key mapKeyId result) ↔
      ∀ y ∈ F.presenceNeeds fuel blk mapId mapKeyId, G y := by
  unfold presenceNeeds at hG ⊢
  unfold containTerm
  dsimp only
  rw [reads_eq]
  unfold readsWith
  dsimp only
  by_cases hbound : (isArrayMap maps mapId || isProgMap maps mapId) = true
  · have hnone : (isArrayMap maps mapId || isProgMap maps mapId ||
        !F.fold (.map (some mapId))) = true := by
      rw [hbound, Bool.true_or]
    rw [if_pos hbound, if_pos hnone]
    exact ⟨fun _ => nofun, fun _ => succeeds_pure _⟩
  · rw [Bool.not_eq_true] at hbound
    rw [hbound, Bool.false_or] at hG
    rw [hbound, if_neg nofun, succeeds_map, Bool.false_or]
    cases hfold : F.fold (.map (some mapId)) with
    | false => exact ⟨fun _ => nofun, fun _ => succeeds_pure _⟩
    | true =>
        rw [hfold, Bool.not_true, if_neg nofun] at hG
        rw [if_pos rfl, Bool.not_true, if_neg nofun]
        cases hat : mapKeyId.bind F.lookupBlock with
        | none =>
            rw [hat, List.forall_mem_singleton] at hG
            rw [List.forall_mem_singleton, ← hG st]
            exact succeeds_presentFuel_key _ _
        | some b =>
            rw [hat, List.forall_mem_singleton] at hG
            rw [List.forall_mem_singleton, ← hG st]
            exact succeeds_presentFuel_key _ _

end ForwardContext

section Direct

variable {maps : List MapInfo} {R : Reads maps} {blk : Option Nat} {st : Z3State maps}

/-- The hooks leave a read to the state. -/
def Unanswered (R : Reads maps) (e : Expr) : Prop :=
  match e with
  | .pktVal .. => R.readPkt e = pure none
  | .mapVal .. => R.readMap e = pure none
  | .bssVal .. => R.readBss e = pure none
  | _ => True

theorem succeeds_optToZ3 {o : Option Expr} :
    Succeeds (optToZ3 (some R) blk st o) ↔
      ∀ v ∈ o.toList.map some, Succeeds (someToZ3 (some R) blk st v) := by
  cases o with
  | none => exact ⟨fun _ => nofun, fun _ => succeeds_pure _⟩
  | some e =>
      unfold optToZ3
      rw [succeeds_map, Option.toList_some, List.map_singleton, List.forall_mem_singleton]
      exact Iff.rfl

theorem length_chunksToZ3 {cs : List (Option Expr)} {cells : List ZBv}
    (h : chunksToZ3 (some R) blk st cs = .ok cells) : cells.length = cs.length := by
  induction cs generalizing cells with
  | nil =>
      cases h
      rfl
  | cons c cs ih =>
      cases c with
      | none =>
          obtain ⟨rest, hrest, h⟩ := bind_eq_ok.mp h
          cases h
          rw [List.length_cons, List.length_cons, ih hrest]
      | some e =>
          obtain ⟨t, -, h⟩ := bind_eq_ok.mp h
          obtain ⟨rest, hrest, h⟩ := bind_eq_ok.mp h
          cases h
          rw [List.length_cons, List.length_cons, ih hrest]

theorem succeeds_chunksToZ3 {cs : List (Option Expr)} :
    Succeeds (chunksToZ3 (some R) blk st cs) ↔
      ∀ c ∈ cs.filter (·.isSome), Succeeds (someToZ3 (some R) blk st c) := by
  induction cs with
  | nil => exact ⟨fun _ => nofun, fun _ => succeeds_pure _⟩
  | cons c cs ih =>
      cases c with
      | none => exact succeeds_map.trans ih
      | some e =>
          rw [List.filter_cons_of_pos rfl, List.forall_mem_cons, ← ih]
          exact succeeds_then fun _ _ => succeeds_map

/-- The arms of a join are lowered in the base state. -/
theorem succeeds_phiArms {vs : List (Option Expr)} {ess : List (List Edge)} :
    Succeeds (phiArms R vs ess) ↔
      ∀ v ∈ (((vs.zip ess).filter fun x => Guard.orAll (x.2.map R.guardOf) ≠ .ff).map (·.1)),
        Succeeds (someToZ3 (some R) none R.base v) := by
  induction vs generalizing ess with
  | nil => exact ⟨fun _ => nofun, fun _ => succeeds_pure _⟩
  | cons v vs ih =>
      cases ess with
      | nil => exact ⟨fun _ => nofun, fun _ => succeeds_pure _⟩
      | cons es ess =>
          unfold phiArms
          dsimp only
          rw [List.zip_cons_cons]
          by_cases hg : Guard.orAll (es.map R.guardOf) = .ff
          · rw [if_pos hg, List.filter_cons_of_neg (by simpa using hg), ih]
          · rw [if_neg hg, List.filter_cons_of_pos (by simpa using hg), List.map_cons,
              List.forall_mem_cons, ← ih]
            exact succeeds_then fun _ _ => succeeds_map

theorem succeeds_aluUnary {op : AluOp} {opcodeS : OpSrc} {imm : Int} {size : Nat} {alu64 : Bool}
    {d : ZBv} : Succeeds (aluUnary op opcodeS imm size alu64 d) ↔ op ∈ [AluOp.NEG, .MOV, .END] := by
  unfold aluUnary
  cases op with
  | NEG | MOV => exact ⟨fun _ => by decide, fun _ => succeeds_pure _⟩
  | END =>
      refine ⟨fun _ => by decide, fun _ => ?_⟩
      dsimp only
      split
      · apply succeeds_concatCells.mpr
        have hbits : 0 < (if imm = 16 || imm = 32 || imm = 64 then imm.toNat else 64) / 8 := by
          split
          · rename_i h
            simp only [Bool.or_eq_true, decide_eq_true_iff] at h
            omega
          · decide
        intro h
        rw [List.reverse_eq_nil_iff, List.map_eq_nil_iff, List.range_eq_nil] at h
        omega
      · exact succeeds_pure _
  | _ => exact ⟨fun h => absurd h (not_succeeds_throw _), fun h => absurd h (by decide)⟩

theorem succeeds_aluBinary {op : AluOp} {offset : Int} {size : AluSize} {d s : ZBv} :
    Succeeds (aluBinary op offset size d s) ↔
      op ∉ [AluOp.NEG, .MOV, .END, .code_e, .code_f] := by
  unfold aluBinary opAt
  cases op with
  | NEG | MOV | END | code_e | code_f =>
      exact ⟨fun h => absurd h (not_succeeds_throw _), fun h => absurd h (by decide)⟩
  | DIV =>
      refine ⟨fun _ => by decide, fun _ => ?_⟩
      dsimp only
      split <;> exact succeeds_pure _
  | _ => exact ⟨fun _ => by decide, fun _ => succeeds_pure _⟩

/-- The bytes of a map value are there unless a constant offset is before its start. -/
theorem succeeds_mapValBytes {w size : Nat} {val : ZTerm (.bv w)} {off : Int} {vo : Option ZBv} :
    Succeeds (mapValBytes val off vo size) ↔ (vo = none → 0 ≤ off) := by
  unfold mapValBytes
  cases vo with
  | some v => exact ⟨fun _ => nofun, fun _ => succeeds_pure _⟩
  | none =>
      dsimp only
      split
      · rename_i hneg
        exact ⟨fun h => absurd h (not_succeeds_throw _), fun h => absurd (h rfl) (not_le.mpr hneg)⟩
      · rename_i hoff
        refine ⟨fun _ _ => not_lt.mp hoff, fun _ => ?_⟩
        split <;> exact succeeds_pure _

/-- A variable offset has a term only if there is one. -/
theorem optToZ3_isSome {o : Option Expr} {vo : Option ZBv}
    (h : optToZ3 (some R) blk st o = .ok vo) : vo = none ↔ o = none := by
  cases o with
  | none =>
      cases h
      exact ⟨fun _ => rfl, fun _ => rfl⟩
  | some e =>
      obtain ⟨t, -, h⟩ := bind_eq_ok.mp h
      cases h
      exact ⟨nofun, nofun⟩

variable {C : Nat → Option Int → Prop}

theorem succeeds_mapVal {block : Nat} {idx : Int} {mapId : Option Nat} {mapKey : Option Expr}
    {mapKeyId : Option Int} {off : Int} {varOff : Option Expr} {size : Nat}
    (he : R.readMap (.mapVal block idx mapId mapKey mapKeyId off varOff size) = pure none) :
    Succeeds (exprToZ3 (some R) blk st (.mapVal block idx mapId mapKey mapKeyId off varOff size)) ↔
      ¬ (mapId.isNone || (varOff.isNone && off < 0)) = true ∧
        ∀ v ∈ mapKey :: varOff.toList.map some, Succeeds (someToZ3 (some R) blk st v) := by
  unfold exprToZ3
  dsimp only
  rw [he, pure_bind]
  cases mapId with
  | none => exact ⟨fun h => absurd h (not_succeeds_throw _), fun h => absurd rfl h.1⟩
  | some id =>
      dsimp only
      rw [List.forall_mem_cons, ← succeeds_optToZ3, ← and_assoc, and_comm (a := ¬ _), and_assoc]
      apply succeeds_then
      intro key _
      rw [and_comm]
      apply succeeds_then
      intro vo hvo
      rw [succeeds_mapValBytes, optToZ3_isSome hvo, Option.isNone_some, Bool.false_or,
        Bool.and_eq_true, decide_eq_true_iff, not_and, not_lt, Option.isNone_iff_eq_none]

/-- Bytes of an array, at a constant and perhaps a variable offset. -/
theorem succeeds_bytes {d size : Nat} {arr : ZTerm (.array d (.bv 8))}
    {addr : Option ZBv → ZTerm (.bv d)} {varOff : Option Expr} :
    Succeeds (optToZ3 (some R) blk st varOff >>= fun vo => concatCells (selectBytes arr (addr vo) size)) ↔
      ¬ decide (size = 0) = true ∧
        ∀ v ∈ varOff.toList.map some, Succeeds (someToZ3 (some R) blk st v) := by
  rw [decide_eq_true_iff, and_comm, ← succeeds_optToZ3]
  exact succeeds_then fun _ _ => succeeds_selectBytes

/-- A key, and the presence that is asked for it. -/
theorem forall_key {k : Expr} {id : Nat} {kid : Option Int} :
    ((∀ v ∈ [some k], Succeeds (someToZ3 (some R) blk st v)) ∧ ∀ q ∈ some (id, kid), C q.1 q.2) ↔
      Succeeds (exprToZ3 (some R) blk st k) ∧ C id kid := by
  rw [List.forall_mem_singleton]
  refine and_congr Iff.rfl ⟨fun h => h _ rfl, fun h q hq => ?_⟩
  cases hq
  exact h

theorem succeeds_funcRetval {r : FuncRetval Expr}
    (hC : ∀ q ∈ (Expr.funcRetval r).asksPresence, ∀ key,
      Succeeds (containTerm (some R) blk st q.1 key q.2 true) ↔ C q.1 q.2) :
    Succeeds (exprToZ3 (some R) blk st (.funcRetval r)) ↔
      (∀ v ∈ (Expr.funcRetval r).operands, Succeeds (someToZ3 (some R) blk st v)) ∧
        ∀ q ∈ (Expr.funcRetval r).asksPresence, C q.1 q.2 := by
  obtain ⟨size, idx, func, block, mapId, mapKey, mapKeyId, fallback, redirects⟩ := r
  unfold exprToZ3 Expr.operands Expr.asksPresence
  cases redirects with
  | false => exact ⟨fun _ => ⟨nofun, nofun⟩, fun _ => succeeds_pure _⟩
  | true =>
      cases mapId with
      | none => cases mapKey <;> exact ⟨fun _ => ⟨nofun, nofun⟩, fun _ => succeeds_pure _⟩
      | some id =>
          cases mapKey with
          | none => exact ⟨fun _ => ⟨nofun, nofun⟩, fun _ => succeeds_pure _⟩
          | some k =>
              have hkey : Succeeds (exprToZ3 (some R) blk st k >>= fun key =>
                  containTerm (some R) blk st id key mapKeyId true >>= fun ok =>
                    pure (funcRetvalTerm
                      ⟨size, idx, func, block, some id, some k, mapKeyId, fallback, true⟩ (some ok))) ↔
                  Succeeds (exprToZ3 (some R) blk st k) ∧ C id mapKeyId :=
                succeeds_then fun _ _ => succeeds_map.trans (hC (id, mapKeyId) rfl _)
              exact hkey.trans forall_key.symm

theorem succeeds_lookupHit {mapId : Option Nat} {mapKey : Option Expr} {mapKeyId : Option Int}
    (hC : ∀ q ∈ (Expr.lookupHit mapId mapKey mapKeyId).asksPresence, ∀ key,
      Succeeds (containTerm (some R) blk st q.1 key q.2 true) ↔ C q.1 q.2) :
    Succeeds (exprToZ3 (some R) blk st (.lookupHit mapId mapKey mapKeyId)) ↔
      (∀ v ∈ (Expr.lookupHit mapId mapKey mapKeyId).operands, Succeeds (someToZ3 (some R) blk st v)) ∧
        ∀ q ∈ (Expr.lookupHit mapId mapKey mapKeyId).asksPresence, C q.1 q.2 := by
  unfold exprToZ3 Expr.operands Expr.asksPresence
  cases mapId with
  | none => cases mapKey <;> exact ⟨fun _ => ⟨nofun, nofun⟩, fun _ => succeeds_pure _⟩
  | some id =>
      cases mapKey with
      | none => exact ⟨fun _ => ⟨nofun, nofun⟩, fun _ => succeeds_pure _⟩
      | some k =>
          have hkey : Succeeds (exprToZ3 (some R) blk st k >>= fun key =>
              containTerm (some R) blk st id key mapKeyId true >>= fun hit =>
                pure (⟨8, .ite hit (bvVal 1 8) (bvVal 0 8)⟩ : ZBv)) ↔
              Succeeds (exprToZ3 (some R) blk st k) ∧ C id mapKeyId :=
            succeeds_then fun _ _ => succeeds_map.trans (hC (id, mapKeyId) rfl _)
          exact hkey.trans forall_key.symm

theorem succeeds_byteSeq {chunks : List (Option Expr)} {size off : Nat} :
    Succeeds (exprToZ3 (some R) blk st (.byteSeq chunks size off)) ↔
      ¬ chunks.isEmpty = true ∧
        ∀ c ∈ chunks.filter (·.isSome), Succeeds (someToZ3 (some R) blk st c) := by
  rw [and_comm, ← succeeds_chunksToZ3]
  apply succeeds_then
  intro cells hcells
  rw [succeeds_map, succeeds_concatCells, ne_eq, ← List.length_eq_zero_iff,
    length_chunksToZ3 hcells, List.length_eq_zero_iff, List.isEmpty_iff]

/-- A value that no hook answers is lowered if it has an encoding and its operands, its arms
and the presence it asks for are. -/
theorem succeeds_exprToZ3 {e : Expr} (he : Unanswered R e)
    (hC : ∀ q ∈ e.asksPresence, ∀ key,
      Succeeds (containTerm (some R) blk st q.1 key q.2 true) ↔ C q.1 q.2) :
    Succeeds (exprToZ3 (some R) blk st e) ↔
      ¬ e.lacksEncoding = true ∧ (∀ v ∈ e.operands, Succeeds (someToZ3 (some R) blk st v)) ∧
        (∀ v ∈ e.arms R.guardOf, Succeeds (someToZ3 (some R) none R.base v)) ∧
        ∀ q ∈ e.asksPresence, C q.1 q.2 := by
  cases e with
  | ptr p => exact ⟨fun h => absurd h (not_succeeds_throw _), fun h => absurd rfl h.1⟩
  | scalar | ingressIfindex | rxQueueIndex | egressIfindex | pktLen | num =>
      exact ⟨fun _ => ⟨nofun, nofun, nofun, nofun⟩, fun _ => succeeds_pure _⟩
  | joinValue blockIdx regNum values edges =>
      have harms : Succeeds (exprToZ3 (some R) blk st (.joinValue blockIdx regNum values edges)) ↔
          Succeeds (phiArms R values edges) := by
        unfold exprToZ3
        dsimp only
        rw [succeeds_then (p := True), and_true]
        intro arms _
        cases arms <;> exact iff_true_intro (succeeds_pure _)
      rw [harms, succeeds_phiArms]
      exact ⟨fun h => ⟨nofun, nofun, h, nofun⟩, fun h => h.2.2.1⟩
  | funcRetval r =>
      rw [succeeds_funcRetval hC]
      exact ⟨fun h => ⟨nofun, h.1, nofun, h.2⟩, fun h => ⟨h.2.1, h.2.2.2⟩⟩
  | pktVal block idx off varOff size =>
      have hread : R.readPkt (.pktVal block idx off varOff size) = pure none := he
      unfold exprToZ3
      dsimp only
      rw [hread, pure_bind, succeeds_bytes]
      exact ⟨fun h => ⟨h.1, h.2, nofun, nofun⟩, fun h => ⟨h.1, h.2.1⟩⟩
  | mapVal block idx mapId mapKey mapKeyId off varOff size =>
      rw [succeeds_mapVal he]
      exact ⟨fun h => ⟨h.1, h.2, nofun, nofun⟩, fun h => ⟨h.1, h.2.1⟩⟩
  | bssVal block idx bssKey off varOff size =>
      have hread : R.readBss (.bssVal block idx bssKey off varOff size) = pure none := he
      unfold exprToZ3
      dsimp only
      rw [hread, pure_bind, succeeds_bytes]
      exact ⟨fun h => ⟨h.1, h.2, nofun, nofun⟩, fun h => ⟨h.1, h.2.1⟩⟩
  | rodataVal data off varOff size =>
      unfold exprToZ3
      rw [succeeds_bytes]
      exact ⟨fun h => ⟨h.1, h.2, nofun, nofun⟩, fun h => ⟨h.1, h.2.1⟩⟩
  | lookupHit mapId mapKey mapKeyId =>
      rw [succeeds_lookupHit hC]
      exact ⟨fun h => ⟨nofun, h.1, nofun, h.2⟩, fun h => ⟨h.2.1, h.2.2.2⟩⟩
  | byteSeq chunks size off =>
      rw [succeeds_byteSeq]
      exact ⟨fun h => ⟨h.1, h.2, nofun, nofun⟩, fun h => ⟨h.1, h.2.1⟩⟩
  | unary op dst opcodeS imm size alu64 =>
      have hop : Succeeds (exprToZ3 (some R) blk st (.unary op dst opcodeS imm size alu64)) ↔
          Succeeds (someToZ3 (some R) blk st dst) ∧ op ∈ [AluOp.NEG, .MOV, .END] :=
        succeeds_then fun _ _ => succeeds_aluUnary
      rw [hop, and_comm]
      unfold Expr.lacksEncoding Expr.operands
      rw [List.forall_mem_singleton, decide_eq_true_iff, not_not]
      exact ⟨fun h => ⟨h.1, h.2, nofun, nofun⟩, fun h => ⟨h.1, h.2.1⟩⟩
  | binary op dst src offset size idx =>
      have hop : Succeeds (exprToZ3 (some R) blk st (.binary op dst src offset size idx)) ↔
          Succeeds (someToZ3 (some R) blk st dst) ∧ Succeeds (someToZ3 (some R) blk st src) ∧
            op ∉ [AluOp.NEG, .MOV, .END, .code_e, .code_f] :=
        succeeds_then fun _ _ => succeeds_then fun _ _ => succeeds_aluBinary
      rw [hop, ← and_assoc, and_comm]
      unfold Expr.lacksEncoding Expr.operands
      rw [List.forall_mem_cons, List.forall_mem_singleton, decide_eq_true_iff]
      exact ⟨fun h => ⟨h.1, h.2, nofun, nofun⟩, fun h => ⟨h.1, h.2.1⟩⟩

end Direct

namespace ForwardContext

variable {maps : List MapInfo} {F : ForwardContext maps} {w : Walk maps} {st : Z3State maps}
  {fuel : Nat} {blk : Option Nat} {G : Part → Prop} {e : Expr}

/-! ## Reads -/

/-- What the hooks answer to a value. -/
def hook (R : Reads maps) (e : Expr) : Except LowerError (Option ZBv) :=
  match e with
  | .pktVal .. => R.readPkt e
  | .mapVal .. => R.readMap e
  | .bssVal .. => R.readBss e
  | _ => pure none

theorem unanswered_of_hook {R : Reads maps} (h : hook R e = pure none) : Unanswered R e := by
  unfold hook at h
  unfold Unanswered
  cases e <;> first | exact h | trivial

theorem hook_unfolded :
    (pure (memoGet w.memo e) : Except LowerError (Option ZBv)) =
      match unfolded w e with
      | .bound => pure (memoGet w.memo e)
      | .folded loc block idx => (F.memAt w fuel).read F.fuel loc block idx
      | .direct => pure none := by
  unfold unfolded
  cases memoGet w.memo e <;> rfl

variable (F w fuel e) in
/-- A read that was bound is answered by its term, and one of a folded region from the
writes. -/
theorem hook_eq :
    hook (F.reads w fuel) e =
      match F.resolution w e with
      | .bound => pure (memoGet w.memo e)
      | .folded loc block idx => (F.memAt w fuel).read F.fuel loc block idx
      | .direct => pure none := by
  rw [reads_eq]
  unfold hook resolution readsWith
  cases e with
  | pktVal block idx off varOff size =>
      dsimp only
      cases F.fold .pkt with
      | true => cases varOff <;> rfl
      | false => exact hook_unfolded
  | mapVal block idx mapId mapKey mapKeyId off varOff size =>
      dsimp only
      cases F.fold (.map mapId) with
      | true => rfl
      | false => exact hook_unfolded
  | bssVal block idx bssKey off varOff size =>
      dsimp only
      cases F.fold (.bss bssKey) with
      | true => cases varOff <;> rfl
      | false => exact hook_unfolded
  | _ => rfl

variable (blk st) in
/-- A read that is not made in the state is first asked of the hooks. -/
theorem exprToZ3_hook (R : Reads maps) (h : F.resolution w e ≠ .direct) :
    ∃ rest, exprToZ3 (some R) blk st e = (do
      match ← hook R e with
      | some t => pure t
      | none => rest) := by
  cases e with
  | pktVal | mapVal | bssVal =>
      unfold exprToZ3
      exact ⟨_, rfl⟩
  | _ => exact absurd rfl h

/-- What is known of a read by how it is resolved: a bound one has a term, and a folded one
is of the packet, a map or a variable. -/
def Resolved (w : Walk maps) (e : Expr) : Resolution → Prop
  | .bound => (memoGet w.memo e).isSome = true
  | .folded loc _ _ => loc.region ≠ .CTX
  | .direct => True

theorem resolved_unfolded : Resolved w e (unfolded w e) := by
  unfold unfolded
  split
  · assumption
  · trivial

variable (F w e) in
theorem resolved_resolution : Resolved w e (F.resolution w e) := by
  unfold resolution
  cases e with
  | pktVal block idx off varOff size | bssVal block idx key off varOff size =>
      dsimp only
      split
      · split
        · trivial
        · exact WriteRegion.noConfusion
      · exact resolved_unfolded
  | mapVal block idx mapId mapKey mapKeyId off varOff size =>
      dsimp only
      split
      · exact WriteRegion.noConfusion
      · exact resolved_unfolded
  | _ => trivial

theorem lowers_value {e : Option Expr}
    (hG : ∀ y ∈ F.needs w (.value fuel blk e), ∀ st, F.LowersPart w st y ↔ G y) :
    F.LowersPart w st (.value fuel blk e) ↔
      ¬ F.lacking w (.value fuel blk e) = true ∧ ∀ y ∈ F.needs w (.value fuel blk e), G y := by
  cases e with
  | none => exact ⟨fun h => absurd h (not_succeeds_throw _), fun h => absurd rfl h.1⟩
  | some e =>
      have hneeds : F.needs w (.value fuel blk (some e)) =
          F.valueNeeds w fuel blk e (F.resolution w e) := rfl
      have hlacking : F.lacking w (.value fuel blk (some e)) = valueLacking e (F.resolution w e) := rfl
      have hresolved := resolved_resolution F w e
      have hhook := hook_eq F w fuel e
      change Succeeds (exprToZ3 (some (F.reads w fuel)) blk st e) ↔ _
      rw [hneeds] at hG
      rw [hneeds, hlacking]
      cases hres : F.resolution w e with
      | bound =>
          rw [hres] at hresolved hhook
          obtain ⟨t, ht⟩ := Option.isSome_iff_exists.mp hresolved
          obtain ⟨rest, hrest⟩ := exprToZ3_hook st blk (F.reads w fuel)
            (hres.trans_ne Resolution.noConfusion)
          rw [hrest, hhook, ht]
          exact ⟨fun _ => ⟨Bool.false_ne_true, nofun⟩, fun _ => succeeds_pure _⟩
      | folded loc block idx =>
          rw [hres] at hresolved hhook hG
          obtain ⟨rest, hrest⟩ := exprToZ3_hook st blk (F.reads w fuel)
            (hres.trans_ne Resolution.noConfusion)
          unfold valueNeeds at hG ⊢
          unfold valueLacking
          dsimp only at hG ⊢
          rw [List.forall_mem_map] at hG ⊢
          rw [hrest, hhook, succeeds_folded st hresolved, decide_eq_true_iff]
          exact and_congr_right fun _ => forall₂_congr fun i hi => hG i hi st
      | direct =>
          rw [hres] at hhook hG
          unfold valueNeeds at hG ⊢
          unfold valueLacking
          dsimp only at hG ⊢
          simp only [List.forall_mem_append, List.forall_mem_map, List.forall_mem_flatMap] at hG ⊢
          obtain ⟨hops, harms, hpresence⟩ := hG
          have hguard : (F.reads w fuel).guardOf = edgeGuard w.info ∧
              (F.reads w fuel).base = F.initSt := by
            rw [reads_eq]
            exact ⟨rfl, rfl⟩
          have hpresent : ∀ q ∈ e.asksPresence, ∀ key,
              Succeeds (containTerm (some (F.reads w fuel)) blk st q.1 key q.2 true) ↔
                ∀ y ∈ F.presenceNeeds fuel blk q.1 q.2, G y := fun q hq key =>
            succeeds_containTerm (hpresence q (Option.mem_toList.mpr hq))
          rw [succeeds_exprToZ3 (C := fun id kid => ∀ y ∈ F.presenceNeeds fuel blk id kid, G y)
            (unanswered_of_hook hhook) hpresent, hguard.1, hguard.2]
          apply and_congr_right'
          refine and_congr (forall₂_congr fun v hv => hops v hv st)
            (and_congr (forall₂_congr fun v hv => harms v hv F.initSt) ?_)
          simp only [Option.mem_toList]
          exact Iff.rfl

/-! ## All parts -/

/-- How far a part still is from the parts that need nothing: what counts first is how deep
reads may still go, then what kind of part it is, then how large a value is. -/
noncomputable def rank (F : ForwardContext maps) : Part → Lex (Nat × Lex (Nat × Nat))
  | .value fuel _ e => toLex (fuel, toLex (F.fuel + 2, sizeOf e))
  | .byte fuel .. => toLex (fuel, toLex (F.fuel + 1, 0))
  | .present fuel depth .. => toLex (fuel, toLex (depth, 0))
  | .operand fuel _ => toLex (fuel, toLex (0, 0))

theorem sizeOf_toList {v o : Option Expr} (h : v ∈ o.toList.map some) : sizeOf v = sizeOf o := by
  obtain ⟨k, hk, rfl⟩ := List.mem_map.mp h
  rw [Option.mem_toList.mp hk]

/-- The operands of a value are smaller. -/
theorem sizeOf_operand {v : Option Expr} (h : v ∈ e.operands) : sizeOf v < sizeOf (some e) := by
  rw [Option.some.sizeOf_spec]
  cases e with
  | pktVal | bssVal | rodataVal =>
      rw [sizeOf_toList h]
      simp only [Expr.pktVal.sizeOf_spec, Expr.bssVal.sizeOf_spec, Expr.rodataVal.sizeOf_spec]
      omega
  | mapVal =>
      rw [Expr.mapVal.sizeOf_spec]
      rcases List.mem_cons.mp h with rfl | h
      · omega
      · rw [sizeOf_toList h]
        omega
  | byteSeq =>
      have hchunk := List.sizeOf_lt_of_mem (List.mem_of_mem_filter h)
      rw [Expr.byteSeq.sizeOf_spec]
      omega
  | unary =>
      obtain rfl := List.mem_singleton.mp h
      rw [Expr.unary.sizeOf_spec]
      omega
  | binary =>
      rw [Expr.binary.sizeOf_spec]
      rcases List.mem_cons.mp h with rfl | h
      · omega
      · obtain rfl := List.mem_singleton.mp h
        omega
  | funcRetval r =>
      obtain ⟨size, idx, func, block, mapId, mapKey, mapKeyId, fallback, redirects⟩ := r
      unfold Expr.operands at h
      dsimp only at h
      split at h
      · rw [sizeOf_toList h, Expr.funcRetval.sizeOf_spec, FuncRetval.mk.sizeOf_spec]
        omega
      · cases h
  | lookupHit =>
      unfold Expr.operands at h
      dsimp only at h
      split at h
      · rw [sizeOf_toList h, Expr.lookupHit.sizeOf_spec]
        omega
      · cases h
  | _ => cases h

theorem sizeOf_arm {g : Edge → Guard} {v : Option Expr} (h : v ∈ e.arms g) :
    sizeOf v < sizeOf (some e) := by
  rw [Option.some.sizeOf_spec]
  cases e with
  | joinValue blockIdx regNum values edges =>
      obtain ⟨x, hx, rfl⟩ := List.mem_map.mp h
      have hmem := List.sizeOf_lt_of_mem (List.of_mem_zip (List.mem_of_mem_filter hx)).1
      rw [Expr.joinValue.sizeOf_spec]
      omega
  | _ => cases h

theorem rank_lt_kind {fuel k k' n n' : Nat} (h : k < k') :
    toLex (fuel, toLex (k, n)) < toLex (fuel, toLex (k', n')) := by
  rw [Prod.Lex.toLex_lt_toLex]
  exact .inr ⟨rfl, Prod.Lex.toLex_lt_toLex.mpr (.inl h)⟩

theorem rank_lt_size {fuel k n n' : Nat} (h : n < n') :
    toLex (fuel, toLex (k, n)) < toLex (fuel, toLex (k, n')) := by
  rw [Prod.Lex.toLex_lt_toLex]
  exact .inr ⟨rfl, Prod.Lex.toLex_lt_toLex.mpr (.inr ⟨rfl, h⟩)⟩

theorem rank_appliesNeeds {depth n k : Nat} {e : Event} {q : Part} (hk : depth < k)
    (h : q ∈ appliesNeeds maps fuel depth e) :
    rank F q < toLex (fuel, toLex (k, n)) := by
  unfold appliesNeeds at h
  split at h
  · split at h
    · cases h
    · rcases List.mem_cons.mp h with rfl | h
      · exact rank_lt_kind (by omega)
      · split at h
        · cases h
        · obtain rfl := List.mem_singleton.mp h
          exact rank_lt_kind hk
  · cases h

theorem rank_keyNeeds {loc : Loc} {n k : Nat} {e : Event} {q : Part} (hk : 0 < k)
    (h : q ∈ keyNeeds fuel loc e) : rank F q < toLex (fuel, toLex (k, n)) := by
  have hq : q ∈ [Part.operand fuel loc.mapKey, .operand fuel e.action.mapKey] := by
    unfold keyNeeds at h
    split_ifs at h
    all_goals first
      | exact h
      | exact absurd h List.not_mem_nil
  rcases List.mem_cons.mp hq with rfl | hq
  · exact rank_lt_kind hk
  · obtain rfl := List.mem_singleton.mp hq
    exact rank_lt_kind hk

theorem rank_writeNeeds {loc : Loc} {n k : Nat} {e : Event} {q : Part} (hk : F.fuel < k)
    (h : q ∈ F.writeNeeds fuel loc e) : rank F q < toLex (fuel, toLex (k, n)) := by
  unfold writeNeeds at h
  rcases List.mem_append.mp h with h | h
  · rcases List.mem_append.mp h with h | h
    · rcases List.mem_cons.mp h with rfl | h
      · exact rank_lt_kind (by omega)
      · obtain ⟨old, -, rfl⟩ := List.mem_map.mp h
        exact rank_lt_kind (by omega)
    · exact rank_appliesNeeds hk h
  · exact rank_keyNeeds (by omega) h

theorem rank_presenceNeeds {id : Nat} {kid : Option Int} {n k : Nat} {q : Part} (hk : F.fuel < k)
    (h : q ∈ F.presenceNeeds fuel blk id kid) : rank F q < toLex (fuel, toLex (k, n)) := by
  unfold presenceNeeds at h
  split at h
  · cases h
  · split at h <;>
      obtain rfl := List.mem_singleton.mp h <;>
      exact rank_lt_kind hk

theorem rank_valueNeeds {q : Part} {how : Resolution} (h : q ∈ F.valueNeeds w fuel blk e how) :
    rank F q < rank F (.value fuel blk (some e)) := by
  unfold valueNeeds at h
  cases how with
  | bound => cases h
  | folded loc block idx =>
      obtain ⟨i, -, rfl⟩ := List.mem_map.mp h
      exact rank_lt_kind (Nat.lt_succ_self _)
  | direct =>
      rcases List.mem_append.mp h with h | h
      · obtain ⟨v, hv, rfl⟩ := List.mem_map.mp h
        exact rank_lt_size (sizeOf_operand hv)
      · rcases List.mem_append.mp h with h | h
        · obtain ⟨v, hv, rfl⟩ := List.mem_map.mp h
          exact rank_lt_size (sizeOf_arm hv)
        · obtain ⟨x, -, h⟩ := List.mem_flatMap.mp h
          exact rank_presenceNeeds (by omega) h

/-- What a part needs comes before it. -/
theorem rank_lt {p q : Part} (h : q ∈ F.needs w p) : rank F q < rank F p := by
  cases p with
  | value fuel blk e =>
      cases e with
      | none => cases h
      | some e => exact rank_valueNeeds h
  | operand fuel e =>
      cases fuel with
      | zero => cases h
      | succ fuel =>
          obtain rfl := List.mem_singleton.mp h
          exact Prod.Lex.toLex_lt_toLex.mpr (.inl (Nat.lt_succ_self fuel))
  | byte fuel loc b i =>
      rcases List.mem_append.mp h with h | h
      · split at h
        · obtain rfl := List.mem_singleton.mp h
          exact rank_lt_kind (Nat.succ_pos _)
        · cases h
      · obtain ⟨e, -, h⟩ := List.mem_flatMap.mp h
        exact rank_writeNeeds (Nat.lt_succ_self _) h
  | present fuel depth mapId b i =>
      cases depth with
      | zero => cases h
      | succ depth =>
          cases b with
          | none => cases h
          | some b =>
              obtain ⟨e, -, h⟩ := List.mem_flatMap.mp h
              rcases List.mem_append.mp h with h | h
              · obtain ⟨k, -, rfl⟩ := List.mem_map.mp h
                exact rank_lt_kind (Nat.succ_pos _)
              · exact rank_appliesNeeds (Nat.lt_succ_self _) h

variable (st) in
/-- A part is lowered, in any state, exactly if all that it depends on has an encoding. -/
theorem lowers_iff_encoded {p : Part} : F.LowersPart w st p ↔ F.Encoded w p := by
  have hwf : WellFounded fun q p => q ∈ F.needs w p :=
    Subrelation.wf rank_lt (InvImage.wf (rank F) wellFounded_lt)
  refine iff_sound (fun st p => F.LowersPart w st p) hwf (fun st p hG => ?_) st p
  cases p with
  | value fuel blk e => exact lowers_value hG
  | operand fuel e => exact lowers_operand hG
  | byte fuel loc b i => exact lowers_byte hG
  | present fuel depth mapId b i => exact lowers_present hG

end ForwardContext

end Hornet
