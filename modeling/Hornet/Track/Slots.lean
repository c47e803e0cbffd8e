import Hornet.Track.Run

/-!
The values in registers and stack slots. `Merged` says what a join can make of the
values that the edges bring, and `TrackPoint` collects the states in which the
tracker leaves a block between two instructions.
-/

namespace Hornet

/-- The parts of a block that hold values. -/
def Block.slots (b : Block) : (Reg → Option Obj) × List (Option Obj) × Option Obj :=
  (b.regs, b.stk, b.tailCtx)

section Slots

variable {b b' : Block} (h : b'.slots = b.slots)

include h

theorem regs_of_slots : b'.regs = b.regs := congrArg (·.1) h

theorem stk_of_slots : b'.stk = b.stk := congrArg (·.2.1) h

theorem tailCtx_of_slots : b'.tailCtx = b.tailCtx := congrArg (·.2.2) h

end Slots

/-- A value is held in a register or a stack slot. -/
inductive Block.Holds (b : Block) (o : Obj) : Prop
  | reg (r : Reg) (h : b.regs r = some o)
  | stk (h : some o ∈ b.stk)

/-- What a join makes of its entries: one of them, a null constant, a join value, or a
pointer into the region of one of them. -/
inductive Merged (entries : List (Option Obj)) : Expr → Prop
  | entry {o : Obj} (h : some o ∈ entries) : Merged entries o.val
  | null : Merged entries (.num 0 8 (-1))
  | join (blockIdx : Nat) (regNum : Int) (values : List (Option Expr)) (edges : List (List Edge)) :
      Merged entries (.joinValue blockIdx regNum values edges)
  | ptr {o : Obj} {p q : PTR Expr} (h : some o ∈ entries) (hp : o.val = .ptr p)
      (htype : q.ptrType = p.ptrType) (hmap : q.ptrType = .PKT ∨ q.mapId = p.mapId)
      (hoff : q.varOff = p.varOff ∨ ∃ b r vs es, q.varOff = some (.joinValue b r vs es)) :
      Merged entries (.ptr q)

/-- The pointer case for a pointer that differs from another merged one in neither its
region, its map nor its variable offset. -/
theorem Merged.repoint {entries : List (Option Obj)} {p q : PTR Expr} (h : Merged entries (.ptr p))
    (htype : q.ptrType = p.ptrType) (hmap : q.mapId = p.mapId) (hoff : q.varOff = p.varOff) :
    Merged entries (.ptr q) := by
  generalize he : Expr.ptr p = e at h
  cases h with
  | @entry o hmem => exact .ptr hmem he.symm htype (.inr hmap) (.inl hoff)
  | null => cases he
  | join => cases he
  | ptr hmem hp htype' hmap' hoff' =>
      cases he
      refine .ptr hmem hp (htype.trans htype') ?_ ?_
      · exact hmap'.imp htype.trans hmap.trans
      · rw [hoff]
        exact hoff'

theorem Merged.weaken {entries entries' : List (Option Obj)} {e : Expr} (h : Merged entries e)
    (hsub : ∀ o, some o ∈ entries → Merged entries' o.val) : Merged entries' e := by
  cases h with
  | entry hmem => exact hsub _ hmem
  | null => exact .null
  | join => exact .join ..
  | ptr hmem hp htype hmap hoff =>
      have hfrom := hp ▸ hsub _ hmem
      generalize he : Expr.ptr _ = e at hfrom
      cases hfrom with
      | @entry o hmem' => exact .ptr hmem' he.symm htype hmap hoff
      | null => cases he
      | join => cases he
      | ptr hmem' hp' htype' hmap' hoff' =>
          cases he
          refine .ptr hmem' hp' (htype.trans htype') ?_ ?_
          · rcases hmap with hmap | hmap
            · exact .inl hmap
            · exact hmap'.imp htype.trans hmap.trans
          · rcases hoff with hoff | hoff
            · exact hoff'.imp hoff.trans fun ⟨b, r, vs, es, h⟩ => ⟨b, r, vs, es, hoff.trans h⟩
            · exact .inr hoff

section Entry

variable {self : Block} {entries : List (Option Obj)}

theorem merged_withNullity {o : Obj} {p : PTR Expr} (hp : o.val = .ptr p)
    (h : Merged entries o.val) (nullity : Option Bool) (copy : Origin) :
    Merged entries (withNullity o p nullity copy).val := by
  unfold withNullity
  split
  · exact h
  · exact (hp ▸ h).repoint rfl rfl rfl

theorem merged_withView {o : Obj} (h : Merged entries o.val) (baseId : Option Int)
    (copy : Origin) : Merged entries (withView o baseId copy).val := by
  unfold withView
  split
  · rename_i p hp
    split
    · exact h
    · exact (hp ▸ h).repoint rfl rfl rfl
  · exact h

theorem slots_nullPhiOf (predEdges : List Edge) (objs : List Obj) (regNum : Int) :
    (self.nullPhiOf predEdges objs regNum).2.slots = self.slots := by
  unfold Block.nullPhiOf
  split
  · split <;> rfl
  · rfl

theorem slots_stampNullPhi (o : Obj) (predEdges : List Edge) (objs : List Obj) (regNum : Int) :
    (self.stampNullPhi o predEdges objs regNum).2.slots = self.slots := by
  unfold Block.stampNullPhi
  split
  · split
    · rfl
    · dsimp only
      split
      · exact slots_nullPhiOf predEdges objs regNum
      · exact slots_nullPhiOf predEdges objs regNum
  · rfl

theorem merged_stampNullPhi {o : Obj} (h : Merged entries o.val) (predEdges : List Edge)
    (objs : List Obj) (regNum : Int) :
    Merged entries (self.stampNullPhi o predEdges objs regNum).1.val := by
  unfold Block.stampNullPhi
  split
  · rename_i p hp
    split
    · exact h
    · dsimp only
      split
      · exact h
      · exact (hp ▸ h).repoint rfl rfl rfl
  · exact h

/-- The outcome of a join: the block holds what it held, and the result is made of the
entries. -/
structure Joined (before : Block) (entries : List (Option Obj)) (out : Option Obj × Block) :
    Prop where
  slots : out.2.slots = before.slots
  merged : ∀ o, out.1 = some o → Merged entries o.val

theorem Joined.nothing {b : Block} (h : b.slots = self.slots) : Joined self entries (none, b) :=
  ⟨h, fun _ ho => by cases ho⟩

theorem Joined.stamp {b : Block} (hslots : b.slots = self.slots) {o : Obj}
    (h : Merged entries o.val) (predEdges : List Edge) (objs : List Obj) (regNum : Int) :
    Joined self entries (some (b.stampNullPhi o predEdges objs regNum).1,
      (b.stampNullPhi o predEdges objs regNum).2) := by
  refine ⟨(slots_stampNullPhi o predEdges objs regNum).trans hslots, fun o' ho' => ?_⟩
  cases ho'
  exact merged_stampNullPhi h predEdges objs regNum

section Uniform

variable {first : Obj} {p : PTR Expr} {objs : List Obj} {ptrs : List (PTR Expr)}
variable (predEdges : List Edge) (nullity : Option Bool) (regNum : Int)

theorem joined_mergePkt (hp : first.val = .ptr p) (htype : p.ptrType = .PKT)
    (h : Merged entries first.val) :
    Joined self entries (self.mergePkt predEdges first p objs ptrs nullity regNum) := by
  unfold Block.mergePkt
  split
  · exact .nothing rfl
  · split
    · dsimp only [Block.newPtrId]
      refine .stamp (by rfl) ?_ predEdges objs regNum
      generalize he : Expr.ptr p = e at hp
      rw [hp] at h
      cases h with
      | @entry o hmem => exact .ptr hmem he.symm htype.symm (.inl rfl) (.inr ⟨_, _, _, _, rfl⟩)
      | null => cases he
      | join => cases he
      | ptr hmem hp' htype' _ _ =>
          cases he
          exact .ptr hmem hp' (htype.symm.trans htype') (.inl rfl) (.inr ⟨_, _, _, _, rfl⟩)
    · exact .stamp rfl (merged_withNullity hp h nullity _) predEdges objs regNum

theorem joined_mergeMapValue (hp : first.val = .ptr p) (h : Merged entries first.val) :
    Joined self entries (self.mergeMapValue predEdges first p objs ptrs nullity regNum) := by
  unfold Block.mergeMapValue
  split
  · exact .nothing rfl
  · split
    · exact .stamp rfl (merged_withNullity hp h nullity _) predEdges objs regNum
    · have hnew := hp ▸ h
      dsimp only [Block.newPtrId]
      refine .stamp (by rfl) ?_ predEdges objs regNum
      exact hnew.repoint rfl rfl rfl

theorem joined_mergeOther (hp : first.val = .ptr p) (h : Merged entries first.val) :
    Joined self entries (self.mergeOther predEdges first p objs ptrs nullity regNum) := by
  unfold Block.mergeOther
  split
  · exact .nothing rfl
  · have hout := merged_withNullity hp h nullity (.merge self.num regNum)
    dsimp only
    split
    · exact .stamp rfl (merged_withView hout none _) predEdges objs regNum
    · exact .stamp rfl hout predEdges objs regNum

theorem joined_mergeScalar (h : Merged entries first.val) :
    Joined self entries (self.mergeScalar predEdges first objs regNum) := by
  have hfirst : Joined self entries (some first, self) := ⟨rfl, fun o ho => by cases ho; exact h⟩
  have hjoin : Joined self entries (Block.mergeScalar.joinScalars self predEdges first objs regNum) := by
    unfold Block.mergeScalar.joinScalars
    split
    · exact ⟨rfl, fun o ho => by cases ho; exact .join ..⟩
    · exact hfirst
  unfold Block.mergeScalar
  split
  · split
    · exact hfirst
    · exact hjoin
  · exact hjoin

theorem joined_mergeUniform (h : ∀ o ∈ objs, Merged entries o.val) :
    Joined self entries (self.mergeUniform predEdges objs regNum) := by
  unfold Block.mergeUniform
  split
  · exact .nothing rfl
  · rename_i first rest
    have hfirst := h first (by simp)
    split
    · rename_i p hp
      split
      · exact .nothing rfl
      · split
        · exact .nothing rfl
        · dsimp only
          split
          · exact joined_mergePkt predEdges _ regNum hp ‹_› hfirst
          · exact joined_mergeMapValue predEdges _ regNum hp hfirst
          · exact joined_mergeOther predEdges _ regNum hp hfirst
    · split
      · exact .nothing rfl
      · exact joined_mergeScalar predEdges regNum hfirst

theorem undecide_ok (org : Origin) {p : PTR Expr} (h : Merged entries (.ptr p)) :
    (self.undecide org p regNum).2.slots = self.slots ∧
      Merged entries (self.undecide org p regNum).1.val := by
  unfold Block.undecide
  split
  · dsimp only [Block.newPtrId]
    refine ⟨?_, h.repoint rfl rfl rfl⟩
    split <;> rfl
  · exact ⟨rfl, h⟩

theorem joined_mergeNulls {merged : Option Obj} {b : Block} (hslots : b.slots = self.slots)
    (h : ∀ o, merged = some o → Merged entries o.val) :
    Joined self entries (b.mergeNulls predEdges objs regNum merged) := by
  unfold Block.mergeNulls
  split
  · rename_i org p
    have hp : Merged entries (.ptr p) := h _ rfl
    have hundecided : (b.undecide org p regNum).2.slots = b.slots := (undecide_ok regNum org hp).1
    exact .stamp (hundecided.trans hslots) (undecide_ok regNum org hp).2 predEdges objs regNum
  · exact .nothing hslots

end Uniform

theorem merged_resolveEntry (regNum : Int) (depth k : Nat) (c : Option EdgeFact) {v : Option Obj}
    (hv : v ∈ entries) {o : Obj} (h : self.resolveEntry regNum depth k c v = some o) :
    Merged entries o.val := by
  have hview : ∀ o, self.viewEntry regNum depth k c v = some o → Merged entries o.val := by
    intro o ho
    unfold Block.viewEntry at ho
    split at ho
    · obtain ⟨o', ho', rfl⟩ := Option.map_eq_some_iff.mp ho
      exact merged_withView (.entry (ho' ▸ hv)) _ _
    · exact .entry (ho ▸ hv)
  unfold Block.resolveEntry at h
  split at h
  · rename_i org p hp
    have hmerged := hview _ hp
    split at h
    · cases h
      exact hmerged
    · split at h
      · cases h
        exact merged_withNullity rfl hmerged _ _
      · cases h
        exact .null
      · cases h
        exact hmerged
  · exact hview o h

/-- The join of any entries is made of them. -/
theorem joined_mergeEntryFuel (fuel : Nat) (self : Block) (predEdges : List Edge)
    (entries : List (Option Obj)) (regNum : Int) (conds : List (Option EdgeFact)) :
    Joined self entries (Block.mergeEntryFuel fuel self predEdges entries regNum conds) := by
  induction fuel generalizing self predEdges entries conds with
  | zero => exact .nothing rfl
  | succ fuel ih =>
      unfold Block.mergeEntryFuel
      split
      · exact .nothing rfl
      · rename_i objs hobjs
        have hmerged : ∀ o ∈ objs, Merged entries o.val := by
          intro o ho
          have hmem : some o ∈ self.resolveEntries regNum fuel conds entries := by
            rw [Lib.eq_map_of_mapM_id hobjs]
            exact List.mem_map_of_mem ho
          obtain ⟨⟨v, k⟩, hvk, hres⟩ := List.mem_map.mp hmem
          exact merged_resolveEntry regNum fuel k _ (List.fst_mem_of_mem_zipIdx hvk) hres
        dsimp only
        split
        · split
          · exact .nothing rfl
          · have hsub := ih self (((predEdges.zip objs).filter (·.2.val.isPTR)).map (·.1))
              (((predEdges.zip objs).filter (·.2.val.isPTR)).map fun x => some x.2) []
            refine joined_mergeNulls predEdges regNum hsub.slots fun o ho => ?_
            refine (hsub.merged o ho).weaken fun o' ho' => ?_
            obtain ⟨x, hx, hx'⟩ := List.mem_map.mp ho'
            cases hx'
            exact hmerged _ (List.of_mem_zip (List.mem_of_mem_filter hx)).2
        · exact joined_mergeUniform predEdges regNum hmerged

/-- The result of a join stays what it is made of. -/
theorem joined_mergeEntry (self : Block) (predEdges : List Edge) (entries : List (Option Obj))
    (regNum : Int) (conds : List (Option EdgeFact)) :
    Joined self entries (self.mergeEntry predEdges entries regNum conds) :=
  joined_mergeEntryFuel _ self predEdges entries regNum conds

end Entry

/-- A value that a join makes of values held by the blocks `pbs`. -/
def MergedFrom (pbs : List Block) (e : Expr) : Prop :=
  ∃ entries : List (Option Obj),
    (∀ o, some o ∈ entries → ∃ pb ∈ pbs, pb.Holds o) ∧ Merged entries e

theorem Joined.from {self : Block} {pbs : List Block} {entries : List (Option Obj)}
    {out : Option Obj × Block} (h : Joined self entries out)
    (hent : ∀ o, some o ∈ entries → ∃ pb ∈ pbs, pb.Holds o) :
    ∀ o, out.1 = some o → MergedFrom pbs o.val :=
  fun o ho => ⟨entries, hent, h.merged o ho⟩

section Predecessors

variable {self : Block} {preds : List (Edge × Block)}

theorem mergeRegs_from (h : ∀ r o, self.regs r = some o → MergedFrom (preds.map (·.2)) o.val) :
    (∀ r o, (self.mergeRegs preds).regs r = some o → MergedFrom (preds.map (·.2)) o.val) ∧
      (self.mergeRegs preds).tailCtx = self.tailCtx := by
  unfold Block.mergeRegs
  refine List.foldlRecOn _ _ (motive := fun b : Block =>
    (∀ r o, b.regs r = some o → MergedFrom (preds.map (·.2)) o.val) ∧ b.tailCtx = self.tailCtx)
    ⟨h, rfl⟩ ?_
  rintro b ⟨hb, hctx⟩ r -
  have hjoin := joined_mergeEntry b (preds.map (·.1)) (preds.map (·.2.regs r)) r.val
    (preds.map fun x => Block.edgeFact x.2 x.1.2)
  refine ⟨fun r' o ho => ?_, (tailCtx_of_slots hjoin.slots).trans hctx⟩
  simp only [Block.setReg, Function.update_apply] at ho
  split at ho
  · refine hjoin.from (fun o' ho' => ?_) o ho
    obtain ⟨x, hx, hx'⟩ := List.mem_map.mp ho'
    exact ⟨x.2, List.mem_map_of_mem hx, .reg r hx'⟩
  · exact hb r' o (regs_of_slots hjoin.slots ▸ ho)

theorem mergeStk_from (h : ∀ r o, self.regs r = some o → MergedFrom (preds.map (·.2)) o.val) :
    (∀ o, (self.mergeStk preds).Holds o → MergedFrom (preds.map (·.2)) o.val) ∧
      (self.mergeStk preds).tailCtx = self.tailCtx := by
  unfold Block.mergeStk
  refine List.foldlRecOn _ _ (motive := fun b : Block =>
    (∀ o, b.Holds o → MergedFrom (preds.map (·.2)) o.val) ∧ b.tailCtx = self.tailCtx) ?_ ?_
  · refine ⟨fun o ho => ?_, rfl⟩
    cases ho with
    | reg r hr => exact h r o hr
    | stk hmem => cases hmem
  · rintro b ⟨hb, hctx⟩ i -
    have hjoin := joined_mergeEntry b (preds.map (·.1)) (preds.map fun x => (x.2.stk[i]?).join)
      (-8 * ((i : Int) + 1)) (preds.map fun x => Block.edgeFact x.2 x.1.2)
    refine ⟨fun o ho => ?_, (tailCtx_of_slots hjoin.slots).trans hctx⟩
    cases ho with
    | reg r hr => exact hb o (.reg r (regs_of_slots hjoin.slots ▸ hr))
    | stk hmem =>
        rcases List.mem_append.mp hmem with hmem | hmem
        · exact hb o (.stk (stk_of_slots hjoin.slots ▸ hmem))
        · refine hjoin.from (fun o' ho' => ?_) o (List.mem_singleton.mp hmem).symm
          obtain ⟨x, hx, hx'⟩ := List.mem_map.mp ho'
          exact ⟨x.2, List.mem_map_of_mem hx,
            .stk (List.mem_of_getElem? (Option.join_eq_some_iff.mp hx'))⟩

theorem slots_mergePktFacts (self pb : Block) (c : Option EdgeFact) (isFirst : Bool) :
    (self.mergePktFacts pb c isFirst).slots = self.slots := by
  simp only [Block.mergePktFacts, Block.slots]
  repeat' split
  all_goals rfl

theorem slots_mergeFacts (self : Block) (preds : List (Edge × Block)) :
    (self.mergeFacts preds).slots = self.slots := by
  unfold Block.mergeFacts
  refine List.foldlRecOn _ _ (motive := fun b : Block => b.slots = self.slots) rfl ?_
  intro b hb x _
  exact (slots_mergePktFacts _ _ _ _).trans hb

end Predecessors

section Enter

variable {blocks : List Block} {self b : Block}

/-- The tracked predecessors. -/
def Block.predBlocks (self : Block) (blocks : List Block) : List Block :=
  self.preds.filterMap (blocks[·]?)

theorem mem_predBlocks_of_edge {x : Edge × Block} (h : x ∈ self.predEdges blocks) :
    x.2 ∈ self.predBlocks blocks := by
  obtain ⟨p, hp, hx⟩ := List.mem_filterMap.mp h
  obtain ⟨pb, hpb, rfl⟩ := Option.map_eq_some_iff.mp hx
  exact List.mem_filterMap.mpr ⟨p, hp, hpb⟩

theorem MergedFrom.mono {pbs pbs' : List Block} {e : Expr} (h : MergedFrom pbs e)
    (hsub : ∀ pb ∈ pbs, pb ∈ pbs') : MergedFrom pbs' e := by
  obtain ⟨entries, hent, hmerged⟩ := h
  exact ⟨entries, fun o ho => (hent o ho).imp fun pb hpb => ⟨hsub pb hpb.1, hpb.2⟩, hmerged⟩

theorem held_mergePredecessors (h : self.mergePredecessors blocks = .ok b) :
    (∀ o, b.Holds o → MergedFrom (self.predBlocks blocks) o.val) ∧ b.tailCtx = self.tailCtx := by
  unfold Block.mergePredecessors at h
  dsimp only at h
  split at h
  · cases h
  · rename_i first rest hedges
    split at h
    · cases h
    · cases h
      have hfirst : ∀ r o, first.2.regs r = some o →
          MergedFrom ((self.predEdges blocks).map (·.2)) o.val := fun r o ho =>
        ⟨[some o], fun o' ho' => by
          obtain rfl : o' = o := by simpa using ho'
          exact ⟨first.2, by simp [hedges], .reg r ho⟩, .entry (by simp)⟩
      let start : Block := { self.mergeFacts (self.predEdges blocks) with regs := first.2.regs }
      have hstart : ∀ r o, start.regs r = some o →
          MergedFrom ((self.predEdges blocks).map (·.2)) o.val := hfirst
      obtain ⟨hregs, hctx⟩ := mergeRegs_from hstart
      obtain ⟨hstk, hctx'⟩ := mergeStk_from hregs
      refine ⟨fun o ho => (hstk o ho).mono fun pb hpb => ?_, ?_⟩
      · obtain ⟨x, hx, rfl⟩ := List.mem_map.mp hpb
        exact mem_predBlocks_of_edge hx
      · have hfacts := tailCtx_of_slots (slots_mergeFacts self (self.predEdges blocks))
        exact (hctx'.trans hctx).trans hfacts

/-- What a block can hold when it is entered. -/
inductive EntryValue (blocks : List Block) (self : Block) : Expr → Prop
  | own {o : Obj} (h : self.Holds o) : EntryValue blocks self o.val
  | ctx : EntryValue blocks self (.ptr { ptrType := .CTX, id := -1 })
  | stk : EntryValue blocks self (.ptr { ptrType := .STK, id := NO_FACT_ID })
  | tail {pb : Block} {o : Obj} (hpb : pb ∈ self.predBlocks blocks) (h : pb.tailCtx = some o) :
      EntryValue blocks self o.val
  | merged {e : Expr} (h : MergedFrom (self.predBlocks blocks) e) : EntryValue blocks self e

theorem held_initState {o : Obj} (h : self.initState.Holds o) : EntryValue blocks self o.val := by
  cases h with
  | reg r hr =>
      simp only [Block.initState, Function.update_apply] at hr
      split at hr
      · cases hr
        exact .stk
      · split at hr
        · cases hr
          exact .ctx
        · exact .own (.reg r hr)
  | stk hmem => cases hmem

theorem held_initTailEntry (h : self.initTailEntry blocks = .ok b) :
    (∀ o, b.Holds o → EntryValue blocks self o.val) ∧ b.tailCtx = self.tailCtx := by
  unfold Block.initTailEntry at h
  dsimp only at h
  split at h
  · cases h
  · cases h
    refine ⟨fun o ho => ?_, rfl⟩
    cases ho with
    | reg r hr =>
        simp only [Function.update_apply] at hr
        split at hr
        · cases hr
          exact .stk
        · split at hr
          · split at hr
            · rename_i x xs hsites
              cases hr
              obtain ⟨pb, hpb, hx⟩ := List.mem_filterMap.mp (hsites ▸ List.mem_cons_self)
              obtain ⟨o, ho, hx⟩ := Option.bind_eq_some_iff.mp hx
              obtain ⟨p, -, rfl⟩ := Option.map_eq_some_iff.mp hx
              exact .tail (List.mem_of_mem_filter hpb) ho
            · cases hr
              exact .ctx
          · cases hr
    | stk hmem => cases hmem

theorem held_enter (h : enter blocks self = .ok b) :
    (∀ o, b.Holds o → EntryValue blocks self o.val) ∧ b.tailCtx = self.tailCtx := by
  unfold enter at h
  split at h
  · cases h
    exact ⟨fun o ho => held_initState ho, rfl⟩
  · split at h
    · exact held_initTailEntry h
    · obtain ⟨hheld, hctx⟩ := held_mergePredecessors h
      exact ⟨fun o ho => .merged (hheld o ho), hctx⟩

end Enter

/-- What a helper call does, by the number of the helper. -/
inductive HelperStep (P : Program) (blocks : List Block) (idx : Nat) (b b' : Block) : Int → Prop
  | mapLookup (h : mapLookup P.maps idx b = .ok b') : HelperStep P blocks idx b b' 1
  | mapUpdate (h : mapUpdate P.maps idx b = .ok b') : HelperStep P blocks idx b b' 2
  | mapDelete (h : mapDelete P.maps idx b = .ok b') : HelperStep P blocks idx b b' 3
  | named {imm : Int} (himm : imm ≠ 1 ∧ imm ≠ 2 ∧ imm ≠ 3) (r : FuncRetval Expr)
      (hfunc : r.func ≠ 44 ∧ r.func ≠ 54 ∧ r.func ≠ 65) (h : b' = namedResult idx b r) :
      HelperStep P blocks idx b b' imm
  | perfEventOutput (h : b' = (b.emit .perfEventOutput).scalarResult idx) :
      HelperStep P blocks idx b b' 25
  | adjustHead (h : adjustHeadCall idx b = .ok b') : HelperStep P blocks idx b b' 44
  | tailCall (h : tailCall P blocks idx b = .ok b') : HelperStep P blocks idx b b' 12
  | adjustMeta {ctx : PTR Expr} (h : adjustCall idx 54 b .adjustMeta = .ok (ctx, b')) :
      HelperStep P blocks idx b b' 54
  | adjustTail {ctx : PTR Expr} (h : adjustCall idx 65 b .adjustTail = .ok (ctx, b')) :
      HelperStep P blocks idx b b' 65
  | buffLen (h : b' = (b.setReg 0 (some (.fresh idx (.pktLen 8 b.pktBaseId)))).emit .xdpBuffLen) :
      HelperStep P blocks idx b b' 188

theorem helperCall_step {P : Program} {blocks : List Block} {idx : Nat} {b b' : Block} {imm : Int}
    (h : helperCall P blocks idx imm b = .ok b') : HelperStep P blocks idx b b' imm := by
  unfold helperCall at h
  rcases Lib.ite_eq_ok h with ⟨rfl, h⟩ | ⟨hlookup, h⟩
  · exact .mapLookup h
  rcases Lib.ite_eq_ok h with ⟨rfl, h⟩ | ⟨hupdate, h⟩
  · exact .mapUpdate h
  rcases Lib.ite_eq_ok h with ⟨rfl, h⟩ | ⟨hdelete, h⟩
  · exact .mapDelete h
  have hother : imm ≠ 1 ∧ imm ≠ 2 ∧ imm ≠ 3 := ⟨hlookup, hupdate, hdelete⟩
  rcases Lib.ite_eq_ok h with ⟨hnamed, h⟩ | ⟨-, h⟩
  · cases h
    refine .named hother _ ?_ rfl
    simp only [NAMED_HELPERS, List.contains_eq_mem, List.mem_cons, List.not_mem_nil, or_false,
      decide_eq_true_eq] at hnamed
    dsimp only
    omega
  rcases Lib.ite_eq_ok h with ⟨rfl, h⟩ | ⟨-, h⟩
  · cases h
    exact .perfEventOutput rfl
  rcases Lib.ite_eq_ok h with ⟨rfl, h⟩ | ⟨-, h⟩
  · cases h
    refine .named hother _ ?_ rfl
    have hfunc : Int.toNat 28 ≠ 44 ∧ Int.toNat 28 ≠ 54 ∧ Int.toNat 28 ≠ 65 := by decide
    exact hfunc
  rcases Lib.ite_eq_ok h with ⟨rfl, h⟩ | ⟨-, h⟩
  · exact .adjustHead h
  rcases Lib.ite_eq_ok h with ⟨hredirect, h⟩ | ⟨-, h⟩
  · cases h
    refine .named hother _ ?_ rfl
    have hfunc : (redirectResult idx imm b).func = imm.toNat := rfl
    simp only [Bool.or_eq_true, decide_eq_true_eq] at hredirect
    rw [hfunc]
    omega
  rcases Lib.ite_eq_ok h with ⟨rfl, h⟩ | ⟨-, h⟩
  · exact .tailCall h
  rcases Lib.ite_eq_ok h with ⟨rfl, h⟩ | ⟨-, h⟩
  · obtain ⟨⟨ctx, b''⟩, hcall, rfl⟩ := Lib.map_eq_ok.mp h
    exact .adjustMeta hcall
  rcases Lib.ite_eq_ok h with ⟨rfl, h⟩ | ⟨-, h⟩
  · obtain ⟨⟨ctx, b''⟩, hcall, rfl⟩ := Lib.map_eq_ok.mp h
    exact .adjustTail hcall
  rcases Lib.ite_eq_ok h with ⟨rfl, h⟩ | ⟨-, h⟩
  · obtain ⟨ctx, -, h⟩ := Lib.bind_eq_ok.mp h
    cases h
    exact .buffLen rfl
  cases h

/-- Block `no` is the next one that the tracker can take, in state `t`. -/
inductive TrackNext (P : Program) (cfg : List Block) : Tracker → Nat → Prop
  | first : TrackNext P cfg { blocks := cfg, idBox := P.instrs.length } 0
  | next {t : Tracker} {done : List Nat} {no : Nat} {b : Block} (hrun : TrackRun P cfg t done)
      (hno : no ∉ done) (hb : cfg[no]? = some b)
      (hpreds : ∀ p ∈ b.preds, p < cfg.length → p ∈ done) : TrackNext P cfg t no

/-- The states in which the tracker leaves a block between two instructions, the block
as it is entered and as it is left included. -/
inductive TrackPoint (P : Program) (cfg : List Block) : Block → Prop
  | mk {t : Tracker} {no : Nat} {self entered b : Block} (next : TrackNext P cfg t no)
      (hself : t.blocks[no]? = some self)
      (henter : enter t.blocks (self.clear t.idBox) = .ok entered) (steps : Nat)
      (hrun : ((List.range' entered.start (entered.end + 1 - entered.start)).take steps).foldlM
        (trackInstr P t.blocks) entered = .ok b) : TrackPoint P cfg b

end Hornet
