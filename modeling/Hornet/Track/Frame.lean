import Hornet.Bpf.Graph
import Hornet.Track.Run
import Hornet.Track.Slots

/-!
What the tracker leaves alone. It fills in the values of a block, and never touches
where the block lies, where it leads and how it ends; of what the block has performed it
drops nothing, and an instruction adds at most one action.
-/

namespace Hornet

/-- The part of a block that the graph builder writes. -/
def Block.frame (b : Block) : Links × List Nat × Bool × Bool × Option ProgRegion :=
  (b.links, b.preds, b.exit, b.jump, b.progEntry)

/-- The helper whose call an action records. -/
def Action.imm : Action → Option Int
  | .mapLookup .. => some 1
  | .adjustHead _ => some 44
  | .adjustTail _ => some 65
  | .adjustMeta _ => some 54
  | .xdpBuffLen => some 188
  | .tailCall .. => some 12
  | _ => none

/-- The result of a helper that a value is. -/
def Expr.retval? : Expr → Option (FuncRetval Expr)
  | .funcRetval r => some r
  | _ => none

/-- The results of helpers among the sources of a block. -/
def Block.retvals (b : Block) : List (FuncRetval Expr) := b.sources.filterMap Expr.retval?

/-- What the values in a block leave alone: the graph's part, and what has been recorded. -/
def Block.outline (b : Block) : (Links × List Nat × Bool × Bool × Option ProgRegion) × Nat ×
    List Event × List (FuncRetval Expr) :=
  (b.frame, b.idx, b.actions, b.retvals)

namespace Block

variable {b self : Block} {predEdges : List Edge} {entries : List Obj} {regNum : Int}

@[simp] theorem outline_setReg (b : Block) (r : Reg) (v : Option Obj) : (b.setReg r v).outline = b.outline := rfl

/-- An action is the one thing that `emit` adds. -/
theorem outline_emit (a : Action) :
    (b.emit a).outline = (b.frame, b.idx, b.actions ++ [⟨b.num, b.idx, a⟩], b.retvals) := rfl

@[simp] theorem outline_newPtrId : b.newPtrId.2.outline = b.outline := rfl
@[simp] theorem outline_setPktFacts (f : PktFacts) : (b.setPktFacts f).outline = b.outline := rfl
@[simp] theorem outline_setPtrFacts (f : PtrFacts) : (b.setPtrFacts f).outline = b.outline := rfl
@[simp] theorem outline_setCtxView (id : Option Int) : (b.setCtxView id).outline = b.outline := rfl
@[simp] theorem outline_initState : b.initState.outline = b.outline := rfl
@[simp] theorem outline_clear (idBox : Int) : (b.clear idBox).outline = (b.frame, b.idx, [], []) := rfl
@[simp] theorem outline_scalarResult (idx : Nat) : (b.scalarResult idx).outline = b.outline := rfl

/-- The result of a helper is recorded among the sources. -/
theorem outline_addRetval (r : FuncRetval Expr) :
    (b.addSource (.funcRetval r)).outline = (b.frame, b.idx, b.actions, b.retvals ++ [r]) := by
  unfold outline retvals addSource
  rw [List.filterMap_append]
  rfl

/-- Other sources are not part of the outline. -/
theorem outline_addSource {e : Expr} (h : e.retval? = none) :
    (b.addSource e).outline = b.outline := by
  unfold outline retvals addSource
  rw [List.filterMap_append, List.filterMap_cons_none h, List.filterMap_nil, List.append_nil]
  rfl

section Merge

@[simp] theorem outline_nullPhiOf : (self.nullPhiOf predEdges entries regNum).2.outline = self.outline := by
  unfold nullPhiOf
  split
  · split
    · rfl
    · exact outline_addSource rfl
  · rfl

@[simp] theorem outline_stampNullPhi (o : Obj) :
    (self.stampNullPhi o predEdges entries regNum).2.outline = self.outline := by
  unfold stampNullPhi
  split
  · split
    · rfl
    · dsimp only
      split
      · exact outline_nullPhiOf
      · exact outline_nullPhiOf
  · rfl

theorem outline_mergePkt {first : Obj} {p : PTR Expr} {ptrs : List (PTR Expr)}
    {nullity : Option Bool} :
    (self.mergePkt predEdges first p entries ptrs nullity regNum).2.outline = self.outline := by
  unfold mergePkt
  split
  · rfl
  · split
    · refine (outline_stampNullPhi _).trans ?_
      rw [outline_setPktFacts, outline_newPtrId]
      exact outline_addSource rfl
    · exact outline_stampNullPhi _

theorem outline_mergeMapValue {first : Obj} {p : PTR Expr} {ptrs : List (PTR Expr)}
    {nullity : Option Bool} :
    (self.mergeMapValue predEdges first p entries ptrs nullity regNum).2.outline = self.outline := by
  unfold mergeMapValue
  split
  · rfl
  · split
    · exact outline_stampNullPhi _
    · exact (outline_stampNullPhi _).trans (outline_addSource rfl)

theorem outline_mergeOther {first : Obj} {p : PTR Expr} {ptrs : List (PTR Expr)}
    {nullity : Option Bool} :
    (self.mergeOther predEdges first p entries ptrs nullity regNum).2.outline = self.outline := by
  unfold mergeOther
  split
  · rfl
  · exact outline_stampNullPhi _

theorem outline_mergeScalar {first : Obj} :
    (self.mergeScalar predEdges first entries regNum).2.outline = self.outline := by
  have hjoin : (mergeScalar.joinScalars self predEdges first entries regNum).2.outline =
      self.outline := by
    unfold mergeScalar.joinScalars
    split
    · exact outline_addSource rfl
    · rfl
  unfold mergeScalar
  split
  · split
    · rfl
    · exact hjoin
  · exact hjoin

/-- The merge of values of one kind records nothing, whatever the kind is. -/
theorem outline_mergeUniform :
    (self.mergeUniform predEdges entries regNum).2.outline = self.outline := by
  unfold mergeUniform
  split
  · rfl
  · split
    · split
      · rfl
      · split
        · rfl
        · dsimp only
          split
          · exact outline_mergePkt
          · exact outline_mergeMapValue
          · exact outline_mergeOther
    · split
      · rfl
      · exact outline_mergeScalar

theorem outline_undecide (org : Origin) (p : PTR Expr) :
    (self.undecide org p regNum).2.outline = self.outline := by
  unfold undecide
  split
  · dsimp only
    split <;> rfl
  · rfl

theorem outline_mergeNulls (merged : Option Obj) :
    (self.mergeNulls predEdges entries regNum merged).2.outline = self.outline := by
  unfold mergeNulls
  split
  · exact (outline_stampNullPhi _).trans (outline_undecide _ _)
  · rfl

/-- Nor does the merge of the values that the edges bring. -/
theorem outline_mergeEntryFuel (fuel : Nat) (entries : List (Option Obj))
    (conds : List (Option EdgeFact)) :
    (mergeEntryFuel fuel self predEdges entries regNum conds).2.outline = self.outline := by
  induction fuel generalizing self predEdges entries conds with
  | zero => rfl
  | succ fuel ih =>
      unfold mergeEntryFuel
      split
      · rfl
      · dsimp only
        split
        · split
          · rfl
          · exact (outline_mergeNulls _).trans (ih _ _)
        · exact outline_mergeUniform

theorem outline_mergeEntry (entries : List (Option Obj)) (conds : List (Option EdgeFact)) :
    (self.mergeEntry predEdges entries regNum conds).2.outline = self.outline :=
  outline_mergeEntryFuel _ _ _

/-- The merge of the facts about packet pointers changes these facts only. -/
theorem outline_mergePktFacts (pb : Block) (c : Option EdgeFact) (isFirst : Bool) :
    (self.mergePktFacts pb c isFirst).outline = self.outline := by
  have hite : ∀ {p : Prop} [Decidable p] {x y : Block}, x.outline = self.outline →
      y.outline = self.outline → (if p then x else y).outline = self.outline := by
    intro p _ x y hx hy
    split
    · exact hx
    · exact hy
  unfold mergePktFacts
  exact hite rfl (hite rfl rfl)

/-- A fold of steps that keep the outline keeps it. -/
theorem outline_foldl {α : Type} {f : Block → α → Block} (h : ∀ b x, (f b x).outline = b.outline)
    (xs : List α) (b : Block) : (xs.foldl f b).outline = b.outline := by
  induction xs generalizing b with
  | nil => rfl
  | cons x xs ih => exact (ih (f b x)).trans (h b x)

theorem outline_mergeFacts (preds : List (Edge × Block)) : (self.mergeFacts preds).outline = self.outline := by
  unfold mergeFacts
  apply outline_foldl
  intro b x
  exact outline_mergePktFacts _ _ _

theorem outline_mergeRegs (preds : List (Edge × Block)) : (self.mergeRegs preds).outline = self.outline := by
  unfold mergeRegs
  apply outline_foldl
  intro b r
  exact outline_mergeEntry _ _

theorem outline_mergeStk (preds : List (Edge × Block)) : (self.mergeStk preds).outline = self.outline := by
  unfold mergeStk
  dsimp only
  rw [outline_foldl]
  · rfl
  · intro b i
    exact outline_mergeEntry _ _

end Merge

end Block

section Enter

variable {blocks : List Block} {b b' : Block}

/-- Entering a block keeps its outline. -/
theorem outline_enter (h : enter blocks b = .ok b') : b'.outline = b.outline := by
  unfold enter at h
  split at h
  · cases h
    rfl
  · split at h
    · unfold Block.initTailEntry at h
      dsimp only at h
      split at h
      · cases h
      · cases h
        rfl
    · unfold Block.mergePredecessors at h
      dsimp only at h
      split at h
      · cases h
      · split at h
        · cases h
        · cases h
          rw [Block.outline_mergeStk, Block.outline_mergeRegs]
          exact Block.outline_mergeFacts _

end Enter

section Instrs

variable {P : Program} {blocks : List Block} {b b' : Block} {idx : Nat} {instr : Instr}

theorem outline_pktAlu {code : AluOp} {p : PTR Expr} {src : Option Expr} {out : Obj × Block}
    (h : pktAlu idx code b p src = .ok out) : out.2.outline = b.outline := by
  unfold pktAlu at h
  split at h
  · split at h
    · split at h
      · cases h
        rfl
      · cases h
        rfl
    · cases h
  · cases h
    rfl
  · cases h
    rfl

/-- Arithmetic on pointers may name a new pointer, and records nothing. -/
theorem outline_ptrAlu {code : AluOp} {o : Obj} {p : PTR Expr} {src : Option Expr}
    {out : Obj × Block} (h : ptrAlu idx code b o p src = .ok out) : out.2.outline = b.outline := by
  have hmap : ∀ {r : Except TrackError Obj}, (r.map (·, b)) = .ok out → out.2.outline = b.outline := by
    intro r hr
    cases r with
    | error e => cases hr
    | ok o =>
        cases hr
        rfl
  unfold ptrAlu at h
  split at h
  · cases h
    rfl
  · split at h
    · cases h
    · split at h
      · exact outline_pktAlu h
      · split at h
        · split at h
          · exact hmap h
          · exact hmap h
        · exact hmap h

/-- An arithmetic instruction changes registers only. -/
theorem outline_trackAlu (h : trackAlu idx instr b = .ok b') : b'.outline = b.outline := by
  obtain ⟨⟨new, b₁⟩, hnew, h⟩ := Lib.bind_eq_ok.mp h
  cases h
  suffices b₁.outline = b.outline from this
  unfold aluResult at hnew
  dsimp only at hnew
  split at hnew
  · split at hnew
    · obtain ⟨v, -, hnew⟩ := Lib.bind_eq_ok.mp hnew
      cases hnew
      rfl
    · cases hnew
      rfl
  · split at hnew
    · cases hptr : ptrAlu idx instr.aluCode b _ _ ((aluSource idx instr b).map (·.val)) with
      | error e =>
          rw [hptr] at hnew
          cases hnew
      | ok out =>
          rw [hptr] at hnew
          cases hnew
          exact outline_ptrAlu hptr
    · split at hnew
      · cases hnew
        rfl
      · cases hnew
        rfl

/-- A load may add a source, but no result of a helper. -/
theorem outline_load {p : PTR Expr} {offset : Int} {size : Nat} {out : Obj × Block}
    (h : load idx b p offset size = .ok out) : out.2.outline = b.outline := by
  have hmap : ∀ {α : Type} {r : Except TrackError α} (f : α → Obj),
      (r.map fun e => (f e, b)) = .ok out → out.2.outline = b.outline := by
    intro α r f hr
    cases r with
    | error e => cases hr
    | ok o =>
        cases hr
        rfl
  unfold load at h
  split at h
  · cases h
  · dsimp only at h
    split at h
    · exact hmap _ h
    · exact hmap _ h
    · cases h
      exact Block.outline_addSource rfl
    · cases h
      exact Block.outline_addSource rfl
    · cases h
      exact Block.outline_addSource rfl
    · cases h
      rfl
    · cases h

theorem outline_trackLoad {rodata : List UInt8} (h : trackLoad rodata idx instr b = .ok b') :
    b'.outline = b.outline := by
  unfold trackLoad at h
  split at h
  · split at h
    · cases h
    · split at h
      · cases h
      · cases h
        rfl
  · split at h
    · cases h
    · split at h
      · obtain ⟨⟨o, b₁⟩, hload, h⟩ := Lib.bind_eq_ok.mp h
        have houtline : b₁.outline = b.outline := outline_load hload
        rcases Lib.ite_eq_ok h with ⟨-, h⟩ | ⟨-, h⟩
        · obtain ⟨v, -, h⟩ := Lib.bind_eq_ok.mp h
          cases h
          exact houtline
        · cases h
          exact houtline
      · cases h

/-- A store to the stack changes its slots only. -/
theorem outline_stkStore {addr : Int} {size : Nat} {value : Option Obj}
    (h : b.stkStore addr size value = .ok b') : b'.outline = b.outline := by
  unfold Block.stkStore at h
  dsimp only at h
  split at h
  · cases h
  · split at h
    · split at h
      · cases h
        rfl
      · cases h
        rfl
    · cases h
      rfl

/-- The helpers whose results are sources. -/
def RETVAL_HELPERS : List Int := NAMED_HELPERS ++ [28, 23, 51]

/-- From `b` to `b'`, an instruction with the immediate `imm` records at most one thing: an
action, or the result of the helper that it calls. -/
inductive Logs (imm : Int) (b b' : Block) : Prop
  | nothing (h : b'.outline = b.outline)
  | one (a : Action) (ha : ∀ n, a.imm = some n → imm = n) (h : b'.outline = (b.emit a).outline)
  | named (r : FuncRetval Expr) (hfunc : (r.func : Int) = imm) (hmem : imm ∈ RETVAL_HELPERS)
      (hidx : r.idx = b.idx) (h : b'.outline = (b.addSource (.funcRetval r)).outline)

variable {imm : Int}

/-- An action that is no call of a helper. -/
theorem Logs.effect {a : Action} (ha : a.imm = none) (h : b'.outline = (b.emit a).outline) :
    Logs imm b b' := by
  refine .one a (fun _ hn => ?_) h
  rw [ha] at hn
  cases hn

/-- An action that is the call of a helper. -/
theorem Logs.call {a : Action} (ha : a.imm = some imm) (h : b'.outline = (b.emit a).outline) :
    Logs imm b b' :=
  .one a (fun _ hn => Option.some.inj (ha.symm.trans hn)) h

/-- What is recorded after a step that records nothing. -/
theorem Logs.after {b₁ : Block} (h : Logs imm b₁ b') (houtline : b₁.outline = b.outline) :
    Logs imm b b' := by
  obtain ⟨hframe, hidx, hactions, hretvals⟩ : b₁.frame = b.frame ∧ b₁.idx = b.idx ∧
      b₁.actions = b.actions ∧ b₁.retvals = b.retvals := by
    simpa [Block.outline] using houtline
  cases h with
  | nothing hsame => exact .nothing (hsame.trans houtline)
  | one a ha hsame =>
      refine .one a ha (hsame.trans ?_)
      have hnum : b₁.num = b.num := congrArg (·.1.num) hframe
      rw [Block.outline_emit, Block.outline_emit, hframe, hidx, hactions, hretvals, hnum]
  | named r hfunc hmem hr hsame =>
      refine .named r hfunc hmem (hr.trans (congrArg _ hidx)) (hsame.trans ?_)
      rw [Block.outline_addRetval, Block.outline_addRetval, hframe, hidx, hactions, hretvals]

/-- A step that records nothing may follow. -/
theorem Logs.then {b₁ : Block} (h : Logs imm b b₁) (houtline : b'.outline = b₁.outline) :
    Logs imm b b' := by
  cases h with
  | nothing hsame => exact .nothing (houtline.trans hsame)
  | one a ha hsame => exact .one a ha (houtline.trans hsame)
  | named r hfunc hmem hidx hsame => exact .named r hfunc hmem hidx (houtline.trans hsame)

/-- Whatever is recorded, the part of the graph stays. -/
theorem Logs.frame (h : Logs imm b b') : b'.frame = b.frame := by
  cases h with
  | nothing hsame => exact congrArg (·.1) hsame
  | one a _ hsame => exact congrArg (·.1) hsame
  | named r _ _ _ hsame => exact congrArg (·.1) hsame

/-- A store records one write, or changes the stack only. -/
theorem logs_store {p : PTR Expr} {offset : Int} {size : Nat} {value : Option Obj}
    (h : store b p offset size value = .ok b') : Logs imm b b' := by
  unfold store at h
  split at h
  · cases h
  · dsimp only at h
    split at h
    · exact .nothing (outline_stkStore h)
    · split at h
      · cases h
      · split at h
        · cases h
        · cases h
          exact .effect rfl rfl
    · cases h
      exact .effect rfl rfl
    · cases h
      exact .effect rfl rfl
    · cases h
      exact .effect rfl rfl
    · cases h

theorem outline_atomicStack {addr : Int} {size : Nat} {src : Option Obj}
    (h : atomicStack idx b instr addr size src = .ok b') : b'.outline = b.outline := by
  obtain ⟨old, -, h⟩ := Lib.bind_eq_ok.mp h
  dsimp only at h
  split at h
  · obtain ⟨b₁, hstore, h⟩ := Lib.bind_eq_ok.mp h
    have houtline := outline_stkStore hstore
    cases h
    split
    · exact houtline
    · exact houtline
  · split at h
    · obtain ⟨b₁, hstore, h⟩ := Lib.bind_eq_ok.mp h
      cases h
      have houtline := outline_stkStore hstore
      exact houtline
    · cases h

theorem logs_atomicMemory {p : PTR Expr} {size : Nat} {src : Option Obj}
    (h : atomicMemory idx b instr p size src = .ok b') : Logs imm b b' := by
  obtain ⟨⟨old, b₁⟩, hload, h⟩ := Lib.bind_eq_ok.mp h
  have houtline : b₁.outline = b.outline := outline_load hload
  refine Logs.after ?_ houtline
  dsimp only at h
  split at h
  · cases h
  · cases h
    split <;> split <;> exact .effect rfl rfl

/-- A store instruction records one write at most, and no call. -/
theorem logs_trackStore (h : trackStore idx instr b = .ok b') : Logs imm b b' := by
  unfold trackStore at h
  dsimp only at h
  split at h
  · cases h
  · cases h
  · split at h
    · exact logs_store h
    · cases h
  · split at h
    · cases h
    · split at h
      · split at h
        · exact .nothing (outline_atomicStack h)
        · split at h
          · exact logs_atomicMemory h
          · cases h
      · cases h
  · cases h

theorem outline_nullBranch (code : JmpOp) (p : PTR Expr) : (nullBranch b code p).outline = b.outline := by
  unfold nullBranch
  dsimp only
  split
  · split <;> rfl
  · split <;> split <;> rfl

theorem outline_pktSizeBranch {code : JmpOp} {p : PTR Expr} (h : pktSizeBranch b code p = .ok b') :
    b'.outline = b.outline := by
  unfold pktSizeBranch at h
  dsimp only at h
  split at h
  all_goals cases h
  all_goals rfl

theorem outline_compareBranch {code : JmpOp} {dst src : Option Expr} {jmp32 : Bool}
    (h : compareBranch b code dst src jmp32 = .ok b') : b'.outline = b.outline := by
  have hcompare : compareBranch.compare b code dst src jmp32 = .ok b' → b'.outline = b.outline := by
    intro h
    unfold compareBranch.compare at h
    split at h
    · split at h
      · split at h
        · split at h
          · exact outline_pktSizeBranch h
          · cases h
        · split at h
          · exact outline_pktSizeBranch h
          · cases h
      · cases h
    · cases h
      rfl
  unfold compareBranch at h
  split at h
  · split at h
    · split at h
      · cases h
      · split at h
        · cases h
          exact outline_nullBranch _ _
        · cases h
          rfl
    · exact hcompare h
  · exact hcompare h

theorem outline_adjustBranch (rv : FuncRetval Expr) (okTaken : Bool) :
    (adjustBranch b rv okTaken).outline = b.outline := by
  unfold adjustBranch
  dsimp only
  split
  · split <;> rfl
  · rfl

/-- A branch leaves facts about its two edges, and records nothing. -/
theorem outline_trackBranch (h : trackBranch instr b = .ok b') : b'.outline = b.outline := by
  unfold trackBranch at h
  dsimp only at h
  split at h
  · cases h
  · split at h
    · split at h
      · cases h
        exact outline_adjustBranch _ _
      · exact outline_compareBranch h
    · exact outline_compareBranch h

/-- A lookup records itself. -/
theorem logs_mapLookup {maps : List MapInfo} (h : mapLookup maps idx b = .ok b') : Logs 1 b b' := by
  unfold mapLookup at h
  split at h
  · obtain ⟨info, -, h⟩ := Lib.bind_eq_ok.mp h
    obtain ⟨⟨key, b₁⟩, hload, h⟩ := Lib.bind_eq_ok.mp h
    cases h
    exact Logs.after (.call rfl rfl) (outline_load hload)
  · cases h

theorem logs_mapUpdate {maps : List MapInfo} (h : mapUpdate maps idx b = .ok b') :
    Logs imm b b' := by
  unfold mapUpdate at h
  split at h
  · obtain ⟨info, -, h⟩ := Lib.bind_eq_ok.mp h
    obtain ⟨⟨key, b₁⟩, hkey, h⟩ := Lib.bind_eq_ok.mp h
    obtain ⟨⟨value, b₂⟩, hvalue, h⟩ := Lib.bind_eq_ok.mp h
    cases h
    have houtline : b₂.outline = b₁.outline := outline_load hvalue
    exact Logs.after (.effect rfl rfl) (houtline.trans (outline_load hkey))
  · cases h
    exact .nothing rfl

theorem logs_mapDelete {maps : List MapInfo} (h : mapDelete maps idx b = .ok b') :
    Logs imm b b' := by
  unfold mapDelete at h
  split at h
  · obtain ⟨info, -, h⟩ := Lib.bind_eq_ok.mp h
    obtain ⟨⟨key, b₁⟩, hload, h⟩ := Lib.bind_eq_ok.mp h
    cases h
    exact Logs.after (.effect rfl rfl) (outline_load hload)
  · cases h
    exact .nothing rfl

/-- A call that moves an end of the packet records the move. -/
theorem logs_adjustCall {action : Int → Action} (ha : ∀ delta, (action delta).imm = some imm)
    {out : PTR Expr × Block} (h : adjustCall idx imm b action = .ok out) : Logs imm b out.2 := by
  obtain ⟨ctx, -, h⟩ := Lib.bind_eq_ok.mp h
  obtain ⟨delta, -, h⟩ := Lib.bind_eq_ok.mp h
  cases h
  exact .call (ha delta) rfl

theorem logs_tailCall (h : tailCall P blocks idx b = .ok b') : Logs 12 b b' := by
  obtain ⟨region, -, h⟩ := Lib.bind_eq_ok.mp h
  split at h
  · split at h
    · cases h
    · obtain ⟨info, -, h⟩ := Lib.bind_eq_ok.mp h
      split at h
      · cases h
      · cases h
        exact .call rfl rfl
  · cases h

/-- A call whose result is named adds the result to the sources. -/
theorem logs_namedResult {r : FuncRetval Expr} (hfunc : (r.func : Int) = imm)
    (hmem : imm ∈ RETVAL_HELPERS) (hidx : r.idx = b.idx) : Logs imm b (namedResult idx b r) :=
  .named r hfunc hmem hidx rfl

/-- A helper records its own call, if any. -/
theorem logs_helperCall (hidx : b.idx = idx) (h : helperCall P blocks idx imm b = .ok b') :
    Logs imm b b' := by
  unfold helperCall at h
  rcases Lib.ite_eq_ok h with ⟨rfl, h⟩ | ⟨-, h⟩
  · exact logs_mapLookup h
  rcases Lib.ite_eq_ok h with ⟨rfl, h⟩ | ⟨-, h⟩
  · exact logs_mapUpdate h
  rcases Lib.ite_eq_ok h with ⟨rfl, h⟩ | ⟨-, h⟩
  · exact logs_mapDelete h
  rcases Lib.ite_eq_ok h with ⟨hnamed, h⟩ | ⟨-, h⟩
  · cases h
    have hmem : imm ∈ NAMED_HELPERS := List.contains_iff_mem.mp hnamed
    have hpos : ∀ n ∈ NAMED_HELPERS, 0 ≤ n := by decide
    exact logs_namedResult (Int.toNat_of_nonneg (hpos imm hmem)) (List.mem_append_left _ hmem)
      (congrArg _ hidx.symm)
  rcases Lib.ite_eq_ok h with ⟨rfl, h⟩ | ⟨-, h⟩
  · cases h
    exact .effect rfl rfl
  rcases Lib.ite_eq_ok h with ⟨rfl, h⟩ | ⟨-, h⟩
  · cases h
    exact logs_namedResult rfl (by decide) (congrArg _ hidx.symm)
  rcases Lib.ite_eq_ok h with ⟨rfl, h⟩ | ⟨-, h⟩
  · obtain ⟨⟨ctx, b₁⟩, hcall, h⟩ := Lib.bind_eq_ok.mp h
    cases h
    have hlogs : Logs 44 b b₁ := logs_adjustCall (fun _ => rfl) hcall
    exact hlogs.then rfl
  rcases Lib.ite_eq_ok h with ⟨hredirect, h⟩ | ⟨-, h⟩
  · cases h
    simp only [Bool.or_eq_true, decide_eq_true_eq] at hredirect
    rcases hredirect with rfl | rfl
    · exact logs_namedResult rfl (by decide) (congrArg _ hidx.symm)
    · exact logs_namedResult rfl (by decide) (congrArg _ hidx.symm)
  rcases Lib.ite_eq_ok h with ⟨rfl, h⟩ | ⟨-, h⟩
  · exact logs_tailCall h
  rcases Lib.ite_eq_ok h with ⟨rfl, h⟩ | ⟨-, h⟩
  · obtain ⟨out, hcall, rfl⟩ := Lib.map_eq_ok.mp h
    exact logs_adjustCall (fun _ => rfl) hcall
  rcases Lib.ite_eq_ok h with ⟨rfl, h⟩ | ⟨-, h⟩
  · obtain ⟨out, hcall, rfl⟩ := Lib.map_eq_ok.mp h
    exact logs_adjustCall (fun _ => rfl) hcall
  rcases Lib.ite_eq_ok h with ⟨rfl, h⟩ | ⟨-, h⟩
  · obtain ⟨ctx, -, h⟩ := Lib.bind_eq_ok.mp h
    cases h
    exact .call rfl rfl
  cases h

/-- A call records one action, or one result of the helper that is called. -/
theorem logs_trackCall (hidx : b.idx = idx) (h : trackCall P blocks idx instr b = .ok b') :
    Logs instr.imm b b' := by
  unfold trackCall at h
  split at h
  · cases h
    exact .nothing rfl
  · obtain ⟨b₁, hcall, h⟩ := Lib.bind_eq_ok.mp h
    cases h
    exact (logs_helperCall hidx hcall).then
      (Block.outline_foldl (fun c r => Block.outline_setReg c r none) _ b₁)

/-- One instruction records at most one thing. -/
theorem logs_trackInstr (h : trackInstr P blocks b idx = .ok b') :
    ∃ instr, P.instrs[idx]? = some instr ∧ Logs instr.imm { b with idx := idx } b' := by
  unfold trackInstr at h
  dsimp only at h
  have hidx : ({ b with idx := idx } : Block).idx = idx := rfl
  generalize ({ b with idx := idx } : Block) = b₀ at h hidx ⊢
  split at h
  · cases h
  · rename_i instr hinstr
    refine ⟨instr, hinstr, ?_⟩
    rcases Lib.ite_eq_ok h with ⟨-, h⟩ | ⟨-, h⟩
    · exact .nothing (outline_trackAlu h)
    rcases Lib.ite_eq_ok h with ⟨-, h⟩ | ⟨-, h⟩
    · exact .nothing (outline_trackLoad h)
    rcases Lib.ite_eq_ok h with ⟨-, h⟩ | ⟨-, h⟩
    · exact logs_trackStore h
    rcases Lib.ite_eq_ok h with ⟨-, h⟩ | ⟨-, h⟩
    · exact logs_trackCall hidx h
    rcases Lib.ite_eq_ok h with ⟨-, h⟩ | ⟨-, h⟩
    · exact .nothing (outline_trackBranch h)
    · cases h
      exact .nothing rfl

/-- An instruction leaves the part of the graph. -/
theorem frame_trackInstr (h : trackInstr P blocks b idx = .ok b') : b'.frame = b.frame := by
  obtain ⟨instr, -, hlogs⟩ := logs_trackInstr h
  exact hlogs.frame

end Instrs

section Run

variable {P : Program} {cfg : List Block} {t : Tracker} {done : List Nat}

/-- Tracking a block keeps the frames of all blocks. -/
theorem frames_trackBlock {t' : Tracker} {no : Nat} (h : trackBlock P t no = .ok t') :
    t'.blocks.map Block.frame = t.blocks.map Block.frame := by
  obtain ⟨b, b', hb, hset, -, entered, henter, hrun⟩ := blocks_trackBlock h
  have hentered : entered.frame = b.frame := congrArg (·.1) (outline_enter henter)
  have hframe : b'.frame = b.frame := by
    refine Lib.foldlM_ok (fun _ c => c.frame = b.frame) hentered ?_ hrun
    intro _ _ _ _ hs _ hstep
    exact (frame_trackInstr hstep).trans hs
  rw [hset, List.map_set, hframe]
  apply List.ext_getElem?
  intro i
  rw [List.getElem?_set]
  split
  · rename_i heq
    subst heq
    obtain ⟨hlt, hget⟩ := List.getElem?_eq_some_iff.mp hb
    simp [hlt, hget]
  · rfl

/-- The tracked blocks have the frames of the graph. -/
theorem TrackRun.frames (h : TrackRun P cfg t done) :
    t.blocks.map Block.frame = cfg.map Block.frame := by
  induction h with
  | first h => exact frames_trackBlock h
  | next _ _ _ _ h ih => exact (frames_trackBlock h).trans ih

/-- Tracking changes the values in the blocks only, not the graph. -/
theorem frames_track (h : track P cfg = .ok t) : t.blocks.map Block.frame = cfg.map Block.frame := by
  obtain ⟨all, hrun, -⟩ := track_run h
  exact hrun.frames

/-- What the instructions of a block make of one in which nothing is recorded. -/
theorem TrackRun.forall_done {Q : Block → Prop}
    (hinstrs : ∀ {blocks : List Block} {entered b : Block}, entered.actions = [] →
      entered.retvals = [] →
      (List.range' entered.start (entered.end + 1 - entered.start)).foldlM
        (trackInstr P blocks) entered = .ok b → Q b)
    (h : TrackRun P cfg t done) : ∀ c ∈ done, ∀ b, t.blocks[c]? = some b → Q b := by
  have hstep : ∀ {t t' : Tracker} {done : List Nat} {no : Nat}, trackBlock P t no = .ok t' →
      (∀ c ∈ done, ∀ b, t.blocks[c]? = some b → Q b) →
      ∀ c ∈ done ++ [no], ∀ b, t'.blocks[c]? = some b → Q b := by
    intro t t' done no h hdone c hc x hx
    obtain ⟨b, b', hb, hset, -, entered, henter, hrun⟩ := blocks_trackBlock h
    have houtline := outline_enter henter
    rw [hset, List.getElem?_set] at hx
    split at hx
    · split at hx
      · cases hx
        exact hinstrs (congrArg (·.2.2.1) houtline) (congrArg (·.2.2.2) houtline) hrun
      · cases hx
    · rename_i hne
      rcases List.mem_append.mp hc with hc | hc
      · exact hdone c hc x hx
      · exact absurd (List.mem_singleton.mp hc).symm hne
  induction h with
  | @first t h =>
      have hnone : ∀ c ∈ ([] : List Nat), ∀ b, cfg[c]? = some b → Q b := by simp
      exact hstep h hnone
  | next _ _ _ _ h ih => exact hstep h ih

/-- A property of all tracked blocks: what the instructions of a block make of one in which
nothing is recorded has it. -/
theorem track_forall {Q : Block → Prop}
    (hinstrs : ∀ {blocks : List Block} {entered b : Block}, entered.actions = [] →
      entered.retvals = [] →
      (List.range' entered.start (entered.end + 1 - entered.start)).foldlM
        (trackInstr P blocks) entered = .ok b → Q b)
    (h : track P cfg = .ok t) : ∀ b ∈ t.blocks, Q b := by
  obtain ⟨all, hrun, hall⟩ := track_run h
  intro b hb
  obtain ⟨c, hc⟩ := List.getElem?_of_mem hb
  have hlt : c < cfg.length := hrun.waiting.1 ▸ (List.getElem?_eq_some_iff.mp hc).1
  exact hrun.forall_done hinstrs c (hall c hlt) b hc

end Run

end Hornet
