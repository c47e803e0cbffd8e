import Hornet.Track.Agree
import Hornet.Verify.Regions
import Hornet.Verify.Widths

/-!
A value is lowered alike in two states that agree on the regions it reads, and an action
that writes elsewhere keeps them in agreement.
-/

namespace Hornet

open Smt Lib

/-! ## The reads in a value -/

mutual

/-- The reads of memory in a value, at any depth. -/
def exprReads : Expr → List Expr
  | .pktVal block idx off varOff size => .pktVal block idx off varOff size :: optReads varOff
  | .mapVal block idx mapId mapKey mapKeyId off varOff size =>
      .mapVal block idx mapId mapKey mapKeyId off varOff size :: (optReads mapKey ++ optReads varOff)
  | .bssVal block idx key off varOff size => .bssVal block idx key off varOff size :: optReads varOff
  | .rodataVal _ _ varOff _ => optReads varOff
  | .lookupHit _ mapKey _ => optReads mapKey
  | .funcRetval ⟨_, _, _, _, mapId, mapKey, _, _, redirects⟩ =>
      if redirects && mapId.isSome then optReads mapKey else []
  | .joinValue _ _ values _ => listReads values
  | .unary _ dst _ _ _ _ => optReads dst
  | .binary _ dst src _ _ _ => optReads dst ++ optReads src
  | .byteSeq chunks _ _ => listReads chunks
  | .pktLen .. | .rxQueueIndex | .scalar .. | .ingressIfindex | .egressIfindex | .num .. | .ptr _ => []
termination_by structural e => e

def optReads : Option Expr → List Expr
  | none => []
  | some e => exprReads e
termination_by structural e => e

def listReads : List (Option Expr) → List Expr
  | [] => []
  | e :: es => optReads e ++ listReads es
termination_by structural es => es

end

section Retained

variable (N : List Expr) (rel : StateRegion → Prop)

/-- The reads are known ones, and the regions are kept. -/
structure Retained (reads : List Expr) (regions : Finset StateRegion) : Prop where
  reads : ∀ x ∈ reads, x ∈ N
  regions : ∀ r ∈ regions, rel r

/-- The reads of a value are known ones, and the regions that it depends on are kept. -/
abbrev ExprRetained (e : Expr) : Prop := Retained N rel (exprReads e) (exprRegions e)

abbrev OptRetained (o : Option Expr) : Prop := Retained N rel (optReads o) (optRegions o)

abbrev ListRetained (es : List (Option Expr)) : Prop := Retained N rel (listReads es) (listRegions es)

variable {N rel} {as bs : List Expr} {s t : Finset StateRegion} {e : Expr} {r : StateRegion}

/-- Two values are retained together if each of them is. -/
theorem retained_append :
    Retained N rel (as ++ bs) (s ∪ t) ↔ Retained N rel as s ∧ Retained N rel bs t := by
  constructor
  · rintro ⟨hreads, hregions⟩
    exact ⟨⟨fun x hx => hreads x (List.mem_append_left _ hx),
        fun r hr => hregions r (Finset.mem_union_left _ hr)⟩,
      ⟨fun x hx => hreads x (List.mem_append_right _ hx),
        fun r hr => hregions r (Finset.mem_union_right _ hr)⟩⟩
  · rintro ⟨ha, hb⟩
    exact ⟨fun x hx => (List.mem_append.mp hx).elim (ha.reads x) (hb.reads x),
      fun r hr => (Finset.mem_union.mp hr).elim (ha.regions r) (hb.regions r)⟩

/-- A read is retained with its operands. -/
theorem retained_cons :
    Retained N rel (e :: as) (insert r s) ↔ e ∈ N ∧ rel r ∧ Retained N rel as s := by
  constructor
  · rintro ⟨hreads, hregions⟩
    exact ⟨hreads e (by simp), hregions r (by simp),
      fun x hx => hreads x (List.mem_cons_of_mem _ hx),
      fun r hr => hregions r (Finset.mem_insert_of_mem hr)⟩
  · rintro ⟨he, hr, hrest⟩
    exact ⟨List.forall_mem_cons.mpr ⟨he, hrest.reads⟩, fun x hx =>
      (Finset.mem_insert.mp hx).elim (fun h => h ▸ hr) (hrest.regions x)⟩

/-- A region is retained with the operands that are read besides. -/
theorem retained_insert : Retained N rel as (insert r s) ↔ rel r ∧ Retained N rel as s := by
  constructor
  · rintro ⟨hreads, hregions⟩
    exact ⟨hregions r (by simp), hreads, fun r hr => hregions r (Finset.mem_insert_of_mem hr)⟩
  · rintro ⟨hr, hrest⟩
    exact ⟨hrest.reads, fun x hx =>
      (Finset.mem_insert.mp hx).elim (fun h => h ▸ hr) (hrest.regions x)⟩

theorem retained_empty : Retained N rel [] ∅ := ⟨by simp, by simp⟩

/-- An absent value reads nothing. -/
theorem optRetained_iff {o : Option Expr} :
    OptRetained N rel o ↔ ∀ e, o = some e → ExprRetained N rel e := by
  cases o with
  | none => exact iff_of_true retained_empty nofun
  | some e => exact ⟨fun h _ he => Option.some.inj he ▸ h, fun h => h e rfl⟩

end Retained

/-! ## States that agree on some regions -/

variable {maps : List MapInfo}

namespace Z3State

/-- The states differ outside of the regions `rel` only. -/
structure SameOn (rel : StateRegion → Prop) (st st' : Z3State maps) : Prop where
  pkt : rel .pkt → st.pkt = st'.pkt
  map : ∀ mapId, rel (.map (some mapId)) → st.map mapId = st'.map mapId
  bss : ∀ key, rel (.bss (some key)) → st.bss key = st'.bss key
  pktLen : rel .pktLen → st.pktLen = st'.pktLen
  rxIndex : rel .rxIndex → st.rxIndex = st'.rxIndex
  r0 : st.r0 = st'.r0
  ingress : st.ingress = st'.ingress
  egress : st.egress = st'.egress

namespace SameOn

variable {rel : StateRegion → Prop} {st st' st'' : Z3State maps}

/-- A state agrees with itself. -/
theorem refl (rel : StateRegion → Prop) (st : Z3State maps) : SameOn rel st st :=
  ⟨fun _ => rfl, fun _ _ => rfl, fun _ _ => rfl, fun _ => rfl, fun _ => rfl, rfl, rfl, rfl⟩

theorem symm (h : SameOn rel st st') : SameOn rel st' st where
  pkt hr := (h.pkt hr).symm
  map mapId hr := (h.map mapId hr).symm
  bss key hr := (h.bss key hr).symm
  pktLen hr := (h.pktLen hr).symm
  rxIndex hr := (h.rxIndex hr).symm
  r0 := h.r0.symm
  ingress := h.ingress.symm
  egress := h.egress.symm

theorem trans (h : SameOn rel st st') (h' : SameOn rel st' st'') : SameOn rel st st'' where
  pkt hr := (h.pkt hr).trans (h'.pkt hr)
  map mapId hr := (h.map mapId hr).trans (h'.map mapId hr)
  bss key hr := (h.bss key hr).trans (h'.bss key hr)
  pktLen hr := (h.pktLen hr).trans (h'.pktLen hr)
  rxIndex hr := (h.rxIndex hr).trans (h'.rxIndex hr)
  r0 := h.r0.trans h'.r0
  ingress := h.ingress.trans h'.ingress
  egress := h.egress.trans h'.egress

/-- A variable of a region that is kept has the same bytes. -/
theorem bssOf (h : SameOn rel st st') {key : Option String} (hr : rel (.bss key)) :
    bssOf st key = bssOf st' key := by
  cases key with
  | none => rfl
  | some key => simp only [Hornet.bssOf, Option.bind_some, h.bss key hr]

/-- A write to a map in both states. -/
theorem setMap (h : SameOn rel st st') (mapId : Nat) (a : MapArrays maps mapId) :
    SameOn rel (st.setMap mapId a) (st'.setMap mapId a) where
  __ := h
  map i hr := by
    show Function.update st.map mapId a i = Function.update st'.map mapId a i
    rcases eq_or_ne i mapId with rfl | hne
    · simp
    · rw [Function.update_of_ne hne, Function.update_of_ne hne]
      exact h.map i hr

/-- A write to a variable in both states. -/
theorem setBss (h : SameOn rel st st') (key : String) (arr : BssArray) :
    SameOn rel (st.setBss key arr) (st'.setBss key arr) where
  __ := h
  bss k hr := by
    show Function.update st.bss key (some arr) k = Function.update st'.bss key (some arr) k
    rcases eq_or_ne k key with rfl | hne
    · simp
    · rw [Function.update_of_ne hne, Function.update_of_ne hne]
      exact h.bss k hr

/-- A change of a map that is left out. -/
theorem of_setMap (st : Z3State maps) {mapId : Nat} (hr : ¬rel (.map (some mapId)))
    (a : MapArrays maps mapId) : SameOn rel st (st.setMap mapId a) where
  __ := SameOn.refl rel st
  map i hi := by
    show st.map i = Function.update st.map mapId a i
    rw [Function.update_of_ne]
    rintro rfl
    exact hr hi

/-- A change of a symbol that is left out. -/
theorem of_setBss (st : Z3State maps) {key : String} (hr : ¬rel (.bss (some key))) (arr : BssArray) :
    SameOn rel st (st.setBss key arr) where
  __ := SameOn.refl rel st
  bss k hk := by
    show st.bss k = Function.update st.bss key (some arr) k
    rw [Function.update_of_ne]
    rintro rfl
    exact hr hk

end SameOn

end Z3State

/-! ## The lowering of a value -/

/-- The hooks know the same about the reads whose regions are kept. -/
structure Reads.SameOn (N : List Expr) (rel : StateRegion → Prop) (R R' : Reads maps) : Prop where
  readPkt : ∀ e ∈ N, ExprRetained N rel e → R.readPkt e = R'.readPkt e
  readMap : ∀ e ∈ N, ExprRetained N rel e → R.readMap e = R'.readMap e
  readBss : ∀ e ∈ N, ExprRetained N rel e → R.readBss e = R'.readBss e
  readPresent : ∀ mapId, rel (.map (some mapId)) → ∀ key atBlock atIdx,
    R.readPresent mapId key atBlock atIdx = R'.readPresent mapId key atBlock atIdx
  guardOf : R.guardOf = R'.guardOf
  base : R.base.SameOn rel R'.base

section Lower

variable {N : List Expr} {rel : StateRegion → Prop} {R R' : Reads maps}

/-- The presence of a key of a map that is kept. -/
theorem containTerm_same (hR : R.SameOn N rel R') {mapId : Nat} (hmap : rel (.map (some mapId)))
    (blk : Option Nat) (st st' : Z3State maps) (key : ZBv) (mapKeyId : Option Int) (result : Bool) :
    containTerm (some R) blk st mapId key mapKeyId result =
      containTerm (some R') blk st' mapId key mapKeyId result := by
  unfold containTerm
  simp only [hR.readPresent mapId hmap]

mutual

/-- A value is lowered alike in states that agree on what it reads. -/
theorem exprToZ3_same (hR : R.SameOn N rel R') {st st' : Z3State maps} (hst : st.SameOn rel st')
    (blk : Option Nat) : (e : Expr) → ExprRetained N rel e →
      exprToZ3 (some R) blk st e = exprToZ3 (some R') blk st' e
  | .scalar .., _ => rfl
  | .joinValue blockIdx regNum values edges, h => by
      simp only [exprToZ3, phiArms_same hR values edges h]
  | .ingressIfindex, _ => by simp only [exprToZ3, hst.ingress]
  | .rxQueueIndex, h => by simp only [exprToZ3, hst.rxIndex (h.regions .rxIndex (by simp [exprRegions]))]
  | .egressIfindex, _ => by simp only [exprToZ3, hst.egress]
  | .pktLen .., h => by simp only [exprToZ3, hst.pktLen (h.regions .pktLen (by simp [exprRegions]))]
  | .funcRetval ⟨size, idx, func, block, mapId, mapKey, mapKeyId, fallback, redirects⟩, h => by
      cases redirects with
      | false =>
          unfold exprToZ3
          rfl
      | true =>
          cases mapId with
          | none => rfl
          | some mapId =>
              obtain ⟨hmap, hkey⟩ := retained_insert.mp h
              cases mapKey with
              | none => rfl
              | some k =>
                  simp only [exprToZ3, exprToZ3_same hR hst blk k hkey]
                  simp only [containTerm_same hR hmap blk st st']
  | .pktVal block idx off varOff size, h => by
      obtain ⟨hread, hregion, hoff⟩ := retained_cons.mp h
      simp only [exprToZ3, hR.readPkt _ hread h, optToZ3_same hR hst blk varOff hoff,
        hst.pkt hregion]
  | .mapVal block idx none mapKey mapKeyId off varOff size, h => by
      obtain ⟨hread, -, -⟩ := retained_cons.mp h
      simp only [exprToZ3, hR.readMap _ hread h]
  | .mapVal block idx (some mapId) mapKey mapKeyId off varOff size, h => by
      obtain ⟨hread, hregion, hrest⟩ := retained_cons.mp h
      obtain ⟨hkey, hoff⟩ := retained_append.mp hrest
      simp only [exprToZ3, hR.readMap _ hread h, someToZ3_same hR hst blk mapKey hkey,
        optToZ3_same hR hst blk varOff hoff, hst.map mapId hregion]
  | .bssVal block idx key off varOff size, h => by
      obtain ⟨hread, hregion, hoff⟩ := retained_cons.mp h
      simp only [exprToZ3, hR.readBss _ hread h, optToZ3_same hR hst blk varOff hoff,
        hst.bssOf hregion]
  | .rodataVal data off varOff size, h => by
      simp only [exprToZ3, optToZ3_same hR hst blk varOff h]
  | .lookupHit none _ _, _ => rfl
  | .lookupHit (some _) none _, _ => rfl
  | .lookupHit (some mapId) (some k) mapKeyId, h => by
      obtain ⟨hmap, hkey⟩ := retained_insert.mp h
      simp only [exprToZ3, exprToZ3_same hR hst blk k hkey, containTerm_same hR hmap blk st st']
  | .num .., _ => rfl
  | .byteSeq chunks size off, h => by
      simp only [exprToZ3, chunksToZ3_same hR hst blk chunks h]
  | .unary op dst opcodeS imm size alu64, h => by
      simp only [exprToZ3, someToZ3_same hR hst blk dst h]
  | .binary op dst src offset size idx, h => by
      obtain ⟨hdst, hsrc⟩ := retained_append.mp h
      simp only [exprToZ3, someToZ3_same hR hst blk dst hdst, someToZ3_same hR hst blk src hsrc]
  | .ptr _, _ => rfl

theorem optToZ3_same (hR : R.SameOn N rel R') {st st' : Z3State maps} (hst : st.SameOn rel st')
    (blk : Option Nat) : (o : Option Expr) → OptRetained N rel o →
      optToZ3 (some R) blk st o = optToZ3 (some R') blk st' o
  | none, _ => rfl
  | some e, h => by simp only [optToZ3, exprToZ3_same hR hst blk e h]

theorem someToZ3_same (hR : R.SameOn N rel R') {st st' : Z3State maps} (hst : st.SameOn rel st')
    (blk : Option Nat) : (o : Option Expr) → OptRetained N rel o →
      someToZ3 (some R) blk st o = someToZ3 (some R') blk st' o
  | none, _ => rfl
  | some e, h => by simp only [someToZ3, exprToZ3_same hR hst blk e h]

theorem chunksToZ3_same (hR : R.SameOn N rel R') {st st' : Z3State maps} (hst : st.SameOn rel st')
    (blk : Option Nat) : (cs : List (Option Expr)) → ListRetained N rel cs →
      chunksToZ3 (some R) blk st cs = chunksToZ3 (some R') blk st' cs
  | [], _ => rfl
  | none :: cs, h => by
      simp only [chunksToZ3, chunksToZ3_same hR hst blk cs (retained_append.mp h).2]
  | some c :: cs, h => by
      obtain ⟨hc, hcs⟩ := retained_append.mp h
      simp only [chunksToZ3, exprToZ3_same hR hst blk c hc, chunksToZ3_same hR hst blk cs hcs]

theorem phiArms_same (hR : R.SameOn N rel R') :
    (vs : List (Option Expr)) → (ess : List (List Edge)) → ListRetained N rel vs →
      phiArms R vs ess = phiArms R' vs ess
  | [], _, _ => by simp only [phiArms]
  | _ :: _, [], _ => by simp only [phiArms]
  | v :: vs, es :: ess, h => by
      obtain ⟨hv, hvs⟩ := retained_append.mp h
      simp only [phiArms, hR.guardOf, someToZ3_same hR hR.base none v hv,
        phiArms_same hR vs ess hvs]

end

end Lower

/-! ## Branch conditions and actions -/

/-- The reads in the operands of a condition. -/
def branchCondReads : Condition → List Expr
  | .containMapValue mapId mapKey _ _ => if mapId.isSome then optReads mapKey else []
  | .adjustHeadCheck .. => []
  | .tailCallTaken _ index _ _ => optReads index
  | .cmp _ dst src _ => optReads dst ++ optReads src

namespace Action

/-- The reads in the operands of an action. -/
def operandReads (a : Action) : List Expr :=
  optReads a.value ++ optReads a.mapKey ++ optReads a.varOff

/-- The read that an atomic addition to a symbol makes when it is performed. -/
def reread : Action → List Expr
  | .bssAtomicAdd (some key) off size _ varOff _ => [.bssVal 0 (-1) (some key) off varOff (max size 1)]
  | _ => []

/-- The regions that the action writes and reads are kept. -/
structure Retained (N : List Expr) (rel : StateRegion → Prop) (a : Action) : Prop where
  operands : Hornet.Retained N rel a.operandReads a.operandRegions
  rereads : ∀ e ∈ a.reread, e ∈ N
  region : ∀ r, a.writeRegion = some r → rel r

end Action

section Actions

variable {N : List Expr} {rel : StateRegion → Prop} {R R' : Reads maps} {st st' : Z3State maps}

namespace Action.Retained

variable {a : Action} (h : a.Retained N rel)

include h

/-- The value that is written is among the operands. -/
theorem value : OptRetained N rel a.value := (retained_append.mp (retained_append.mp h.operands).1).1

theorem mapKey : OptRetained N rel a.mapKey := (retained_append.mp (retained_append.mp h.operands).1).2

theorem varOff : OptRetained N rel a.varOff := (retained_append.mp h.operands).2

end Action.Retained

/-- A condition is lowered alike in states that agree on what it reads. -/
theorem condition_same (hR : R.SameOn N rel R') (hst : st.SameOn rel st') (blk : Option Nat)
    (c : Condition) (h : Retained N rel (branchCondReads c) (branchCondRegions c)) :
    c.toZ3 (some R) blk st = c.toZ3 (some R') blk st' := by
  cases c with
  | containMapValue mapId mapKey mapKeyId result =>
      cases mapId with
      | none => rfl
      | some mapId =>
          obtain ⟨hmap, hkey⟩ := retained_insert.mp h
          cases mapKey with
          | none => rfl
          | some k =>
              simp only [Condition.toZ3, exprToZ3_same hR hst blk k hkey,
                containTerm_same hR hmap blk st st']
  | adjustHeadCheck result idx => rfl
  | tailCallTaken mapId index slot idx =>
      cases slot with
      | none => rfl
      | some slot =>
          cases index with
          | none => rfl
          | some e => simp only [Condition.toZ3, exprToZ3_same hR hst blk e h]
  | cmp code dst src jmp32 =>
      obtain ⟨hdst, hsrc⟩ := retained_append.mp h
      simp only [Condition.toZ3, someToZ3_same hR hst blk dst hdst, someToZ3_same hR hst blk src hsrc]

/-- The arrays of a map after a store to it in both states. -/
theorem mapStore_same (hst : st.SameOn rel st') {mapId : Nat} (hmap : rel (.map (some mapId)))
    (key : ZTerm (.bv (keyBits maps mapId))) (newVal : ZTerm (.bv (valBits maps mapId)))
    (markPresent : Bool) :
    (mapStore st mapId key newVal markPresent).SameOn rel
      (mapStore st' mapId key newVal markPresent) := by
  unfold mapStore
  simp only [hst.map mapId hmap]
  exact hst.setMap mapId _

section Same

variable (hR : R.SameOn N rel R') (hst : st.SameOn rel st') (blk : Option Nat)

include hR hst

theorem mapKeyZ3_same {mapId : Nat} {mapKey : Option Expr} (hkey : OptRetained N rel mapKey) :
    mapKeyZ3 (some R) blk st mapId mapKey = mapKeyZ3 (some R') blk st' mapId mapKey := by
  simp only [mapKeyZ3, someToZ3_same hR hst blk mapKey hkey]

/-- A write to the packet keeps the agreement. -/
theorem pktWrite_same {varOff value : Option Expr} (hpkt : rel .pkt) (hoff : OptRetained N rel varOff)
    (hvalue : OptRetained N rel value) (off : Int) (size : Nat) :
    Related (Z3State.SameOn rel) (pktWriteToZ3 (some R) blk st off varOff size value)
      (pktWriteToZ3 (some R') blk st' off varOff size value) := by
  simp only [pktWriteToZ3, optToZ3_same hR hst blk varOff hoff, someToZ3_same hR hst blk value hvalue,
    hst.pkt hpkt]
  refine Related.bind (.refl (fun _ => rfl) _) ?_
  rintro vo _ rfl
  refine Related.bind (.refl (fun _ => rfl) _) ?_
  rintro val _ rfl
  exact .pure { hst with pkt := fun _ => rfl }

/-- A write to an entry keeps the agreement. -/
theorem mapWrite_same {mapId : Nat} {mapKey value varOff : Option Expr}
    (hmap : rel (.map (some mapId))) (hkey : OptRetained N rel mapKey) (hvalue : OptRetained N rel value)
    (hoff : OptRetained N rel varOff) (off : Int) (size : Nat) :
    Related (Z3State.SameOn rel) (mapWriteToZ3 (some R) blk st mapId mapKey off size value varOff)
      (mapWriteToZ3 (some R') blk st' mapId mapKey off size value varOff) := by
  simp only [mapWriteToZ3, mapKeyZ3_same hR hst blk hkey, someToZ3_same hR hst blk value hvalue,
    optToZ3_same hR hst blk varOff hoff, hst.map mapId hmap]
  refine Related.bind (.refl (fun _ => rfl) _) ?_
  rintro key _ rfl
  refine Related.bind (.refl (fun _ => rfl) _) ?_
  rintro val _ rfl
  refine Related.bind (.refl (fun _ => rfl) _) ?_
  rintro vo _ rfl
  cases vo with
  | some v => exact .pure (mapStore_same hst hmap _ _ _)
  | none =>
      dsimp only
      split
      · exact .error _
      · exact .pure (mapStore_same hst hmap _ _ _)

theorem mapAtomicAdd_same {mapId : Nat} {mapKey value varOff : Option Expr}
    (hmap : rel (.map (some mapId))) (hkey : OptRetained N rel mapKey) (hvalue : OptRetained N rel value)
    (hoff : OptRetained N rel varOff) (off : Int) (size : Nat) :
    Related (Z3State.SameOn rel) (mapAtomicAddToZ3 (some R) blk st mapId mapKey off size value varOff)
      (mapAtomicAddToZ3 (some R') blk st' mapId mapKey off size value varOff) := by
  have hcur := hst.map mapId hmap
  simp only [mapAtomicAddToZ3, mapStore, mapKeyZ3_same hR hst blk hkey,
    someToZ3_same hR hst blk value hvalue, optToZ3_same hR hst blk varOff hoff]
  generalize st.map mapId = cur at hcur ⊢
  subst hcur
  refine Related.bind (.refl (fun _ => rfl) _) ?_
  rintro key _ rfl
  refine Related.bind (.refl (fun _ => rfl) _) ?_
  rintro vo _ rfl
  cases vo with
  | some v =>
      refine Related.bind (.refl (fun _ => rfl) _) ?_
      rintro addend _ rfl
      exact .pure (hst.setMap mapId _)
  | none =>
      dsimp only
      split
      · exact .error _
      · split
        · exact .error _
        · refine Related.bind (.refl (fun _ => rfl) _) ?_
          rintro addend _ rfl
          exact .pure (hst.setMap mapId _)

/-- An update keeps the agreement. -/
theorem mapUpdate_same {mapId : Nat} {mapKey value : Option Expr} (hmap : rel (.map (some mapId)))
    (hkey : OptRetained N rel mapKey) (hvalue : OptRetained N rel value) (flags : Option Int)
    (idx : Int) :
    Related (Z3State.SameOn rel) (mapUpdateToZ3 (some R) blk st mapId mapKey value flags idx)
      (mapUpdateToZ3 (some R') blk st' mapId mapKey value flags idx) := by
  simp only [mapUpdateToZ3, mapKeyZ3_same hR hst blk hkey, someToZ3_same hR hst blk value hvalue,
    hst.map mapId hmap]
  refine Related.bind (.refl (fun _ => rfl) _) ?_
  rintro key _ rfl
  refine Related.bind (.refl (fun _ => rfl) _) ?_
  rintro val _ rfl
  split
  · exact .pure hst
  · exact .pure (mapStore_same hst hmap _ _ _)
  · exact .pure (hst.setMap mapId _)

theorem mapDelete_same {mapId : Nat} {mapKey : Option Expr} (hmap : rel (.map (some mapId)))
    (hkey : OptRetained N rel mapKey) :
    Related (Z3State.SameOn rel) (mapDeleteToZ3 (some R) blk st mapId mapKey)
      (mapDeleteToZ3 (some R') blk st' mapId mapKey) := by
  simp only [mapDeleteToZ3, mapKeyZ3_same hR hst blk hkey, hst.map mapId hmap]
  split
  · refine Related.bind (.refl (fun _ => rfl) _) ?_
    rintro key _ rfl
    exact .pure (hst.setMap mapId _)
  · exact .pure hst

/-- A write to a variable keeps the agreement. -/
theorem bssWrite_same {key : String} {value varOff : Option Expr} (hbss : rel (.bss (some key)))
    (hvalue : OptRetained N rel value) (hoff : OptRetained N rel varOff) (off : Int) (size : Nat) :
    Related (Z3State.SameOn rel) (bssWriteToZ3 (some R) blk st key off size value varOff)
      (bssWriteToZ3 (some R') blk st' key off size value varOff) := by
  simp only [bssWriteToZ3, someToZ3_same hR hst blk value hvalue, optToZ3_same hR hst blk varOff hoff,
    hst.bssOf hbss]
  refine Related.bind (.refl (fun _ => rfl) _) ?_
  rintro vo _ rfl
  refine Related.bind (.refl (fun _ => rfl) _) ?_
  rintro val _ rfl
  exact .pure (hst.setBss key _)

/-- An action whose regions are kept does the same to them. -/
theorem event_same {e : Event} (h : e.action.Retained N rel) :
    Related (Z3State.SameOn rel) (e.toZ3 (some R) blk st) (e.toZ3 (some R') blk st') := by
  obtain ⟨block, idx, action⟩ := e
  unfold Event.toZ3
  dsimp only at h ⊢
  split
  · exact pktWrite_same hR hst blk (h.region _ rfl) h.varOff h.value _ _
  · exact mapWrite_same hR hst blk (h.region _ rfl) h.mapKey h.value h.varOff _ _
  · exact mapAtomicAdd_same hR hst blk (h.region _ rfl) h.mapKey h.value h.varOff _ _
  · exact mapUpdate_same hR hst blk (h.region _ rfl) h.mapKey h.value _ _
  · exact mapDelete_same hR hst blk (h.region _ rfl) h.mapKey
  · exact bssWrite_same hR hst blk (h.region _ rfl) h.value h.varOff _ _
  · rename_i key off size value varOff old
    have hbss := h.region _ rfl
    -- the addition reads the symbol again, at a variable offset that is kept
    have hold : OptRetained N rel (some (.bssVal 0 (-1) (some key) off varOff (max size 1))) :=
      retained_cons.mpr ⟨h.rereads _ (List.mem_singleton_self _), hbss, h.varOff⟩
    have hsum : OptRetained N rel (some (.binary .ADD
        (some (.bssVal 0 (-1) (some key) off varOff (max size 1))) value 0
        (if max size 1 = 4 then .b4 else .b8) (-1))) := retained_append.mpr ⟨hold, h.value⟩
    exact bssWrite_same hR hst blk hbss hsum h.varOff _ _
  · have hlen := hst.pktLen (h.region _ rfl)
    refine .pure { hst with pktLen := fun _ => ?_ }
    simp only [adjustLen, hlen]
  · have hlen := hst.pktLen (h.region _ rfl)
    refine .pure { hst with pktLen := fun _ => ?_ }
    simp only [adjustLen, hlen]
  · have hvalue : OptRetained N rel _ := h.value
    simp only [Action.value] at hvalue
    simp only [ctxWriteToZ3, someToZ3_same hR hst blk _ hvalue]
    refine Related.bind (.refl (fun _ => rfl) _) ?_
    rintro v _ rfl
    exact .pure { hst with rxIndex := fun _ => rfl }
  · exact .pure hst

end Same

section LeftOut

variable {S : Option (Reads maps)} {blk : Option Nat}

/-- A write to an entry changes the arrays of its map only. -/
theorem mapWrite_sets {mapId : Nat} {mapKey value varOff : Option Expr} {off : Int} {size : Nat}
    (h : mapWriteToZ3 S blk st mapId mapKey off size value varOff = .ok st') :
    ∃ a, st' = st.setMap mapId a := by
  obtain ⟨key, -, h⟩ := bind_eq_ok.mp h
  obtain ⟨val, -, h⟩ := bind_eq_ok.mp h
  obtain ⟨vo, -, h⟩ := bind_eq_ok.mp h
  cases vo with
  | some v =>
      cases h
      exact ⟨_, rfl⟩
  | none =>
      obtain ⟨-, h⟩ | ⟨-, h⟩ := ite_eq_ok h <;> cases h
      exact ⟨_, rfl⟩

theorem mapAtomicAdd_sets {mapId : Nat} {mapKey value varOff : Option Expr} {off : Int} {size : Nat}
    (h : mapAtomicAddToZ3 S blk st mapId mapKey off size value varOff = .ok st') :
    ∃ a, st' = st.setMap mapId a := by
  obtain ⟨key, -, h⟩ := bind_eq_ok.mp h
  obtain ⟨vo, -, h⟩ := bind_eq_ok.mp h
  cases vo with
  | some v =>
      obtain ⟨addend, -, h⟩ := bind_eq_ok.mp h
      cases h
      exact ⟨_, rfl⟩
  | none =>
      obtain ⟨-, h⟩ | ⟨-, h⟩ := ite_eq_ok h
      · cases h
      · obtain ⟨-, h⟩ | ⟨-, h⟩ := ite_eq_ok h
        · cases h
        · obtain ⟨addend, -, h⟩ := bind_eq_ok.mp h
          cases h
          exact ⟨_, rfl⟩

theorem setMap_self (st : Z3State maps) (mapId : Nat) : st.setMap mapId (st.map mapId) = st := by
  simp only [Z3State.setMap, Function.update_eq_self]

/-- An update changes the arrays of its map only. -/
theorem mapUpdate_sets {mapId : Nat} {mapKey value : Option Expr} {flags : Option Int} {idx : Int}
    (h : mapUpdateToZ3 S blk st mapId mapKey value flags idx = .ok st') :
    ∃ a, st' = st.setMap mapId a := by
  obtain ⟨key, -, h⟩ := bind_eq_ok.mp h
  obtain ⟨v, -, h⟩ := bind_eq_ok.mp h
  dsimp only at h
  split at h
  · cases h
    exact ⟨_, (setMap_self st mapId).symm⟩
  · cases h
    exact ⟨_, rfl⟩
  · cases h
    exact ⟨_, rfl⟩

theorem mapDelete_sets {mapId : Nat} {mapKey : Option Expr}
    (h : mapDeleteToZ3 S blk st mapId mapKey = .ok st') : ∃ a, st' = st.setMap mapId a := by
  obtain ⟨-, h⟩ | ⟨-, h⟩ := ite_eq_ok h
  · obtain ⟨key, -, h⟩ := bind_eq_ok.mp h
    cases h
    exact ⟨_, rfl⟩
  · cases h
    exact ⟨_, (setMap_self st mapId).symm⟩

/-- An action that writes to a region that is left out changes no other one. -/
theorem event_leftOut {e : Event} {r : StateRegion} (hr : e.action.writeRegion = some r)
    (hout : ¬rel r) (h : e.toZ3 S blk st = .ok st') : st.SameOn rel st' := by
  obtain ⟨block, idx, action⟩ := e
  unfold Event.toZ3 at h
  dsimp only at h hr
  have hmap : ∀ {mapId : Nat}, (∃ a, st' = st.setMap mapId a) → r = .map (some mapId) →
      st.SameOn rel st' := by
    rintro mapId ⟨a, rfl⟩ rfl
    exact .of_setMap st hout a
  split at h
  · obtain rfl := Option.some.inj hr
    obtain ⟨vo, -, h⟩ := bind_eq_ok.mp h
    obtain ⟨val, -, h⟩ := bind_eq_ok.mp h
    cases h
    exact { Z3State.SameOn.refl rel st with pkt := fun h => absurd h hout }
  · exact hmap (mapWrite_sets h) (Option.some.inj hr).symm
  · exact hmap (mapAtomicAdd_sets h) (Option.some.inj hr).symm
  · exact hmap (mapUpdate_sets h) (Option.some.inj hr).symm
  · exact hmap (mapDelete_sets h) (Option.some.inj hr).symm
  · obtain rfl := Option.some.inj hr
    obtain ⟨vo, -, h⟩ := bind_eq_ok.mp h
    obtain ⟨val, -, h⟩ := bind_eq_ok.mp h
    cases h
    exact .of_setBss st hout _
  · obtain rfl := Option.some.inj hr
    obtain ⟨vo, -, h⟩ := bind_eq_ok.mp h
    obtain ⟨val, -, h⟩ := bind_eq_ok.mp h
    cases h
    exact .of_setBss st hout _
  · obtain rfl := Option.some.inj hr
    cases h
    exact { Z3State.SameOn.refl rel st with pktLen := fun h => absurd h hout }
  · obtain rfl := Option.some.inj hr
    cases h
    exact { Z3State.SameOn.refl rel st with pktLen := fun h => absurd h hout }
  · obtain rfl := Option.some.inj hr
    obtain ⟨v, -, h⟩ := bind_eq_ok.mp h
    cases h
    exact { Z3State.SameOn.refl rel st with rxIndex := fun h => absurd h hout }
  · cases h
    exact .refl rel st

end LeftOut

end Actions

end Hornet
