import Hornet.Arith.Cells
import Hornet.Track.Sized
import Hornet.Verify.Forward

/-!
The widths of lowered values. The term of a sized value is no wider than its size
says, so its number is below the bound; a value that stands for a field of the
context declares four bytes, while the field has 64 bits.
-/

namespace Hornet

open Smt

section Terms

variable {maps : List MapInfo}

theorem size_concatCells {cs : List ZBv} {t : ZBv} (h : concatCells cs = .ok t) :
    t.size = (cs.map (·.size)).sum := by
  cases cs with
  | nil => cases h
  | cons b bs =>
      cases h
      exact size_concatLE b bs

/-- Cells of eight bits. -/
theorem size_concatBytes {cs : List ZBv} (hcs : ∀ c ∈ cs, c.size = 8) {t : ZBv}
    (h : concatCells cs = .ok t) : t.size = 8 * cs.length := by
  rw [size_concatCells h, List.map_congr_left hcs, List.map_const', List.sum_replicate_nat,
    Nat.mul_comm]

theorem size_selectBytes {d : Nat} {arr : ZTerm (.array d (.bv 8))} {base : ZTerm (.bv d)}
    {size : Nat} {t : ZBv} (h : concatCells (selectBytes arr base size) = .ok t) :
    t.size = 8 * size := by
  have hcells : ∀ c ∈ selectBytes arr base size, c.size = 8 := by
    intro c hc
    obtain ⟨i, -, rfl⟩ := List.mem_map.mp hc
    rfl
  have hlength : (selectBytes arr base size).length = size := by simp [selectBytes]
  rw [size_concatBytes hcells h, hlength]

theorem size_mapValBytes {w : Nat} {val : ZTerm (.bv w)} {off : Int} {varOff : Option ZBv}
    {size : Nat} {t : ZBv} (h : mapValBytes val off varOff size = .ok t) : t.size = 8 * size := by
  unfold mapValBytes at h
  split at h
  · cases h
    exact Nat.mul_comm size 8
  · split at h
    · cases h
    · dsimp only at h
      split at h
      · cases h
        exact Nat.mul_comm size 8
      · cases h
        exact Nat.mul_comm size 8

theorem size_funcRetvalTerm (r : FuncRetval Expr) (ok : Option (ZTerm .bool)) :
    (funcRetvalTerm r ok).size = 8 * r.size := by
  unfold funcRetvalTerm
  dsimp only
  repeat' split
  all_goals rfl

/-- The width at which a unary operation is lowered. -/
def unaryBits (op : AluOp) (imm : Int) (size : Nat) : Nat :=
  if op = .END then 8 * endSize imm else if size = 4 then 32 else 64

theorem size_aluUnary {op : AluOp} {opcodeS : OpSrc} {imm : Int} {size : Nat} {alu64 : Bool}
    {d t : ZBv} (h : aluUnary op opcodeS imm size alu64 d = .ok t) :
    t.size = unaryBits op imm size := by
  unfold aluUnary at h
  split at h
  · cases h
    rfl
  · cases h
    rfl
  · have hbits : (if imm = 16 || imm = 32 || imm = 64 then imm.toNat else 64) = 8 * endSize imm := by
      rw [endSize]
      split
      · rename_i himm
        simp only [Bool.or_eq_true, decide_eq_true_eq] at himm
        omega
      · rfl
    rw [unaryBits, if_pos rfl]
    dsimp only at h
    split at h
    · have hcells := size_concatBytes (by simp) h
      simp only [List.length_reverse, List.length_map, List.length_range] at hcells
      omega
    · cases h
      exact hbits
  · cases h

/-- The size of a unary operation is the number of bytes it is lowered to. -/
theorem unaryBits_of_sized {op : AluOp} {opcodeS : OpSrc} {imm : Int} {size : Nat} {alu64 : Bool}
    {dst : Option Expr} (hsized : (Expr.unary op dst opcodeS imm size alu64).sized) {t : ZBv} {d : ZBv}
    (h : aluUnary op opcodeS imm size alu64 d = .ok t) : unaryBits op imm size = 8 * size := by
  have hwidth : size = 4 ∨ size = 8 → (if size = 4 then 32 else 64) = 8 * size := by
    rintro (rfl | rfl) <;> rfl
  unfold unaryBits
  cases op with
  | NEG => exact hwidth hsized
  | MOV => exact hwidth hsized
  | END =>
      have hsize : size = endSize imm := hsized
      rw [if_pos rfl, hsize]
  | _ => cases h

theorem size_opAt {op : AluOp} {signed : Bool} {size : AluSize} {w : Nat} {d s : ZTerm (.bv w)}
    {t : ZBv} (h : opAt op signed size d s = .ok t) : t.size = w := by
  unfold opAt at h
  split at h
  case h_4 =>
    dsimp only at h
    split at h <;> cases h <;> rfl
  all_goals cases h <;> rfl

theorem size_aluBinary_b4 {op : AluOp} {offset : Int} {d s t : ZBv}
    (h : aluBinary op offset .b4 d s = .ok t) : t.size = 32 := size_opAt h

/-- A 64-bit operation is lowered at eight bits at least. -/
theorem le_size_aluBinary {op : AluOp} {offset : Int} {d s t : ZBv}
    (h : aluBinary op offset .b8 d s = .ok t) : 8 ≤ t.size := by
  rw [size_opAt h]
  unfold opWidth alu64Width
  dsimp only
  split <;> omega

theorem size_aluBinary {op : AluOp} {offset : Int} {size : AluSize} {d s t : ZBv}
    (h : aluBinary op offset size d s = .ok t) : t.size ≤ 8 * size.bytes := by
  unfold aluBinary at h
  dsimp only at h
  rw [size_opAt h]
  unfold opWidth
  cases size with
  | b4 => exact Nat.le_refl 32
  | b8 =>
      dsimp only
      split
      · exact Nat.le_refl 64
      · exact alu64Width_le ..

/-- Hooks whose reads have the width of the value that is read. -/
structure Reads.Sized (R : Reads maps) : Prop where
  readPkt : ∀ e t, R.readPkt e = .ok (some t) → t.size = 8 * e.size
  readMap : ∀ e t, R.readMap e = .ok (some t) → t.size = 8 * e.size
  readBss : ∀ e t, R.readBss e = .ok (some t) → t.size = 8 * e.size

def HooksSized (R : Option (Reads maps)) : Prop := ∀ R', R = some R' → R'.Sized

/-- The field of the context that a four-byte value stands for. -/
def Expr.ctxField (st : Z3State maps) : Expr → Option (ZTerm (.bv 64))
  | .ingressIfindex => some st.ingress
  | .rxQueueIndex => some st.rxIndex
  | .egressIfindex => some st.egress
  | .pktLen size _ => if size = 4 then some st.pktLen else none
  | _ => none

/-- A value that is read from memory. -/
def Expr.isRead : Expr → Bool
  | .pktVal .. | .mapVal .. | .bssVal .. => true
  | _ => false

section Lower

variable {R : Option (Reads maps)} {blk : Option Nat} {st : Z3State maps} {t : ZBv}

/-- A read that goes through a hook or, where the hook finds nothing, to the state. -/
theorem size_hooked {f : Reads maps → Except LowerError (Option ZBv)}
    {rest : Except LowerError ZBv} {n : Nat}
    (hhook : ∀ R', R = some R' → ∀ t, f R' = .ok (some t) → t.size = n)
    (hrest : ∀ t, rest = .ok t → t.size = n)
    (h : (do match ← (match R with | some R' => f R' | none => pure none) with
      | some t => pure t
      | none => rest : Except LowerError ZBv) = .ok t) : t.size = n := by
  obtain ⟨found, hfound, h⟩ := Lib.bind_eq_ok.mp h
  cases found with
  | none => exact hrest t h
  | some t' =>
      cases h
      cases R with
      | none => cases hfound
      | some R' => exact hhook R' rfl t hfound

theorem size_read (hR : HooksSized R) {e : Expr} (hread : e.isRead = true)
    (h : exprToZ3 R blk st e = .ok t) : t.size = 8 * e.size := by
  cases e with
  | pktVal block idx off varOff size =>
      unfold exprToZ3 at h
      refine size_hooked (fun R' hR' t ht => (hR R' hR').readPkt _ t ht) (fun t ht => ?_) h
      obtain ⟨vo, -, ht⟩ := Lib.bind_eq_ok.mp ht
      exact size_selectBytes ht
  | mapVal block idx mapId mapKey mapKeyId off varOff size =>
      unfold exprToZ3 at h
      refine size_hooked (fun R' hR' t ht => (hR R' hR').readMap _ t ht) (fun t ht => ?_) h
      split at ht
      · cases ht
      · obtain ⟨key, -, ht⟩ := Lib.bind_eq_ok.mp ht
        obtain ⟨vo, -, ht⟩ := Lib.bind_eq_ok.mp ht
        exact size_mapValBytes ht
  | bssVal block idx bssKey off varOff size =>
      unfold exprToZ3 at h
      refine size_hooked (fun R' hR' t ht => (hR R' hR').readBss _ t ht) (fun t ht => ?_) h
      obtain ⟨vo, -, ht⟩ := Lib.bind_eq_ok.mp ht
      exact size_selectBytes ht
  | _ => cases hread

/-- The width of a value's term. A 64-bit operation has none: it is lowered at the width
that the literals among its operands allow, and which operands are literals depends on the
state. -/
def Expr.width : Expr → Option Nat
  | .joinValue .. | .ingressIfindex | .rxQueueIndex | .egressIfindex | .pktLen .. => some 64
  | .lookupHit .. => some 8
  | .unary op _ _ imm size _ => some (unaryBits op imm size)
  | .binary _ _ _ _ .b4 _ => some 32
  | .binary _ _ _ _ .b8 _ => none
  | e => some (8 * e.size)

theorem size_of_width (hR : HooksSized R) {e : Expr} {n : Nat} (hwidth : e.width = some n)
    (h : exprToZ3 R blk st e = .ok t) : t.size = n := by
  cases e with
  | scalar size idx =>
      unfold exprToZ3 at h
      cases h
      exact Option.some.inj hwidth
  | joinValue blockIdx regNum values edges =>
      obtain rfl := Option.some.inj hwidth
      unfold exprToZ3 at h
      split at h
      · cases h
        rfl
      · obtain ⟨arms, -, h⟩ := Lib.bind_eq_ok.mp h
        split at h <;> cases h <;> rfl
  | ingressIfindex | rxQueueIndex | egressIfindex | pktLen =>
      unfold exprToZ3 at h
      cases h
      exact Option.some.inj hwidth
  | funcRetval r =>
      obtain rfl := Option.some.inj hwidth
      unfold exprToZ3 at h
      split at h
      · split at h
        · split at h
          · cases h
            exact size_funcRetvalTerm _ _
          · obtain ⟨key, -, h⟩ := Lib.bind_eq_ok.mp h
            obtain ⟨ok, -, h⟩ := Lib.bind_eq_ok.mp h
            cases h
            exact size_funcRetvalTerm _ _
        · cases h
          exact size_funcRetvalTerm _ _
      · cases h
        exact size_funcRetvalTerm _ _
  | pktVal | mapVal | bssVal => exact (size_read hR rfl h).trans (Option.some.inj hwidth)
  | rodataVal data off varOff size =>
      unfold exprToZ3 at h
      obtain ⟨vo, -, h⟩ := Lib.bind_eq_ok.mp h
      exact (size_selectBytes h).trans (Option.some.inj hwidth)
  | lookupHit mapId mapKey mapKeyId =>
      obtain rfl := Option.some.inj hwidth
      unfold exprToZ3 at h
      dsimp only at h
      split at h
      · obtain ⟨key, -, h⟩ := Lib.bind_eq_ok.mp h
        obtain ⟨hit, -, h⟩ := Lib.bind_eq_ok.mp h
        cases h
        rfl
      · cases h
        rfl
  | num v size idx =>
      unfold exprToZ3 at h
      cases h
      exact (Nat.mul_comm size 8).trans (Option.some.inj hwidth)
  | byteSeq chunks size off =>
      unfold exprToZ3 at h
      obtain ⟨cells, -, h⟩ := Lib.bind_eq_ok.mp h
      obtain ⟨whole, -, h⟩ := Lib.bind_eq_ok.mp h
      cases h
      exact (Nat.mul_comm size 8).trans (Option.some.inj hwidth)
  | unary op dst opcodeS imm size alu64 =>
      unfold exprToZ3 at h
      obtain ⟨d, -, h⟩ := Lib.bind_eq_ok.mp h
      exact (size_aluUnary h).trans (Option.some.inj hwidth)
  | binary op dst src offset size idx =>
      cases size with
      | b4 =>
          unfold exprToZ3 at h
          obtain ⟨d, -, h⟩ := Lib.bind_eq_ok.mp h
          obtain ⟨s, -, h⟩ := Lib.bind_eq_ok.mp h
          exact (size_aluBinary_b4 h).trans (Option.some.inj hwidth)
      | b8 => cases hwidth
  | ptr p =>
      unfold exprToZ3 at h
      cases h

/-- A value without a width of its own is a 64-bit operation. -/
theorem le_size_of_width_none {e : Expr} (hwidth : e.width = none)
    (h : exprToZ3 R blk st e = .ok t) : 8 ≤ t.size := by
  cases e with
  | binary op dst src offset size idx =>
      cases size with
      | b4 => cases hwidth
      | b8 =>
          unfold exprToZ3 at h
          obtain ⟨d, -, h⟩ := Lib.bind_eq_ok.mp h
          obtain ⟨s, -, h⟩ := Lib.bind_eq_ok.mp h
          exact le_size_aluBinary h
  | _ => cases hwidth

/-- The term of a sized value that stands for no field of the context is no wider than
the size says. -/
theorem size_exprToZ3 (hR : HooksSized R) {e : Expr} (hsized : e.sized)
    (hfield : e.ctxField st = none) (h : exprToZ3 R blk st e = .ok t) : t.size ≤ 8 * e.size := by
  cases e with
  | ingressIfindex | rxQueueIndex | egressIfindex => cases hfield
  | pktLen size baseId =>
      rcases hsized with rfl | rfl
      · cases hfield
      · exact (size_of_width hR rfl h).le
  | unary op dst opcodeS imm size alu64 =>
      unfold exprToZ3 at h
      obtain ⟨d, -, h⟩ := Lib.bind_eq_ok.mp h
      exact (size_aluUnary h).trans_le (unaryBits_of_sized hsized h).le
  | binary op dst src offset size idx =>
      unfold exprToZ3 at h
      obtain ⟨d, -, h⟩ := Lib.bind_eq_ok.mp h
      obtain ⟨s, -, h⟩ := Lib.bind_eq_ok.mp h
      exact size_aluBinary h
  | ptr p => cases hsized
  | _ => exact (size_of_width hR rfl h).le

theorem exprToZ3_ctxField {e : Expr} {field : ZTerm (.bv 64)} (hfield : e.ctxField st = some field)
    (h : exprToZ3 R blk st e = .ok t) : e.size = 4 ∧ t = ⟨64, field⟩ := by
  cases e with
  | pktLen size baseId =>
      have hchoice : (if size = 4 then some st.pktLen else none) = some field := hfield
      split at hchoice
      · rename_i hsize
        cases hchoice
        unfold exprToZ3 at h
        cases h
        exact ⟨hsize, rfl⟩
      · cases hchoice
  | ingressIfindex | rxQueueIndex | egressIfindex =>
      cases hfield
      unfold exprToZ3 at h
      cases h
      exact ⟨rfl, rfl⟩
  | _ => cases hfield

end Lower

end Terms

section Walk

variable {maps : List MapInfo} {F : ForwardContext maps}

/-- The reads that the walk has bound have the width of their value. -/
def MemoSized (memo : List (Expr × ZBv)) : Prop :=
  ∀ x ∈ memo, x.1.isRead = true → x.2.size = 8 * x.1.size

theorem size_of_same {e e' : Expr} (h : Expr.same e e' = true) (hread : e'.isRead = true) :
    e.isRead = true ∧ e.size = e'.size := by
  cases e' with
  | pktVal =>
      cases e <;> simp_all [Expr.same, Expr.size, Expr.isRead]
  | mapVal =>
      cases e <;> simp_all [Expr.same, Expr.size, Expr.isRead]
  | bssVal =>
      cases e <;> simp_all [Expr.same, Expr.size, Expr.isRead]
  | _ => cases hread

theorem size_memoGet {memo : List (Expr × ZBv)} (hmemo : MemoSized memo) {e : Expr}
    (hread : e.isRead = true) {t : ZBv} (h : ForwardContext.memoGet memo e = some t) :
    t.size = 8 * e.size := by
  obtain ⟨x, hx, rfl⟩ := Option.map_eq_some_iff.mp h
  have hsame := List.find?_some hx
  obtain ⟨hread', hsize⟩ := size_of_same hsame hread
  rw [hmemo x (List.mem_of_find?_eq_some hx) hread', hsize]

theorem size_memoryRead {M : Memory maps} {fuel : Nat} {loc : Loc} {atBlock : Nat} {atIdx : Int}
    {t : ZBv} (h : M.read fuel loc atBlock atIdx = .ok (some t)) : t.size = 8 * loc.size := by
  obtain ⟨cells, hcells, h⟩ := Lib.bind_eq_ok.mp h
  split at h
  · cases h
  · rename_i cs hcs
    obtain ⟨t', ht', h⟩ := Lib.bind_eq_ok.mp h
    cases h
    have hlength : cs.length = loc.size := by
      have hall := congrArg List.length (Lib.eq_map_of_mapM_id hcs)
      rw [List.length_map, Lib.length_mapM_ok hcells, List.length_range] at hall
      exact hall.symm
    rw [size_concatBytes (by simp) ht', List.length_map, hlength]

theorem sized_readsWith {w : Walk maps} (hmemo : MemoSized w.memo)
    (lower : Expr → Except LowerError ZBv) : (F.readsWith w lower).Sized where
  readPkt e t h := by
    simp only [ForwardContext.readsWith] at h
    split at h
    · split at h
      · split at h
        · cases h
        · exact size_memoryRead h
      · exact size_memoGet hmemo rfl (Except.ok.inj h)
    · cases h
  readMap e t h := by
    simp only [ForwardContext.readsWith] at h
    split at h
    · split at h
      · exact size_memoryRead h
      · exact size_memoGet hmemo rfl (Except.ok.inj h)
    · cases h
  readBss e t h := by
    simp only [ForwardContext.readsWith] at h
    split at h
    · split at h
      · split at h
        · cases h
        · exact size_memoryRead h
      · exact size_memoGet hmemo rfl (Except.ok.inj h)
    · cases h

theorem sized_hooked {w : Walk maps} (hmemo : MemoSized w.memo) : HooksSized (F.hooked w) := by
  intro R' hR'
  obtain rfl := Option.some.inj hR'
  unfold ForwardContext.reads
  split <;> exact sized_readsWith hmemo _

/-- The states that the walk goes through. -/
inductive WalkPoint (F : ForwardContext maps) : Walk maps → Prop
  | start : WalkPoint F { curSigma := F.initSt }
  | enter {w : Walk maps} (b : Nat) (hw : WalkPoint F w) : WalkPoint F (F.enterBlock w b)
  | item {w w' : Walk maps} {b : Nat} {i : Item} (hw : WalkPoint F w)
      (h : F.walkItem b w i = .ok w') : WalkPoint F w'
  | leave {w : Walk maps} (b : Nat) (info : ForwardInfo maps) (hw : WalkPoint F w) :
      WalkPoint F { w with info := Function.update w.info b (some info) }
  | done {w : Walk maps} (hw : WalkPoint F w) :
      WalkPoint F { w with curBlock := none, curReach := .ff, curSigma := F.initSt }

/-- A walk ends in one of its states. -/
theorem walkPoint_walk {order : List Nat} {w : Walk maps} (h : F.walk order = .ok w) :
    WalkPoint F w := by
  obtain ⟨w', hw', h⟩ := Lib.bind_eq_ok.mp h
  cases h
  refine .done (Lib.foldlM_ok (fun _ w => WalkPoint F w) .start ?_ hw')
  intro _ b w₁ w₂ hw₁ _ hstep
  unfold ForwardContext.walkBlock at hstep
  split at hstep
  · cases hstep
    exact hw₁
  · obtain ⟨w₃, hitems, hstep⟩ := Lib.bind_eq_ok.mp hstep
    obtain ⟨⟨taken, fall, imprecise⟩, -, hstep⟩ := Lib.bind_eq_ok.mp hstep
    cases hstep
    exact .leave b _ (Lib.foldlM_ok (fun _ w => WalkPoint F w) (.enter b hw₁)
      (fun _ _ _ _ hw _ hitem => .item hw hitem) hitems)

theorem WalkPoint.memoSized {w : Walk maps} (h : WalkPoint F w) : MemoSized w.memo := by
  induction h with
  | start => exact fun x hx => by cases hx
  | enter b _ ih => exact ih
  | leave b info _ ih => exact ih
  | done _ ih => exact ih
  | @item w w' b i _ hstep ih =>
      cases i with
      | src e =>
          simp only [ForwardContext.walkItem] at hstep
          split at hstep
          · cases hstep
            exact ih
          · obtain ⟨t, ht, hstep⟩ := Lib.bind_eq_ok.mp hstep
            cases hstep
            intro x hx hread
            rcases List.mem_cons.mp hx with rfl | hx
            · exact size_read (sized_hooked ih) hread ht
            · exact ih x hx hread
      | act e =>
          have hlookup : MemoSized (w.record e).memo := by
            unfold Walk.record
            split <;> exact ih
          rw [ForwardContext.walkItem_act] at hstep
          split at hstep
          · cases hstep
            exact hlookup
          · obtain ⟨sigma, -, hstep⟩ := Lib.bind_eq_ok.mp hstep
            cases hstep
            exact hlookup

end Walk

/-- A value in a register or a stack slot is below the bound its size declares exactly
when it does not stand for a field of the context whose value is wider. -/
theorem declared_size_bounds_iff {P : Program} {cfg : List Block} {b : Block} {o : Obj}
    (hcfg : buildCfg P.instrs P.progs = .ok cfg) (hb : TrackPoint P cfg b) (ho : b.Holds o)
    (hptr : o.val.isPTR = false) {maps : List MapInfo} {R : Option (Reads maps)}
    (hR : R = none ∨ ∃ (F : ForwardContext maps) (w : Walk maps), WalkPoint F w ∧ R = F.hooked w)
    (blk : Option Nat) (st : Z3State maps) {t : ZBv} (ht : exprToZ3 R blk st o.val = .ok t)
    (m : ZModel) :
    t.toNat m < 2 ^ (8 * o.val.size) ↔
      ∀ field, o.val.ctxField st = some field → (field.eval m).toNat < 2 ^ 32 := by
  have hsized : o.val.sized := ((hb.sized (blank_buildCfg hcfg)).held o ho).sized hptr
  have hhooks : HooksSized R := by
    rcases hR with rfl | ⟨F, w, hw, rfl⟩
    · exact fun R' hR' => by cases hR'
    · exact sized_hooked hw.memoSized
  cases hfield : o.val.ctxField st with
  | none =>
      refine iff_of_true ?_ (fun field h => by cases h)
      calc t.toNat m < 2 ^ t.size := t.toNat_lt m
        _ ≤ 2 ^ (8 * o.val.size) :=
          Nat.pow_le_pow_right (by decide) (size_exprToZ3 hhooks hsized hfield ht)
  | some field =>
      obtain ⟨hsize, heval⟩ := exprToZ3_ctxField hfield ht
      rw [hsize, heval]
      simp

/-- `r0 = ctx->rx_queue_index; exit` -/
def queueProgram : Program :=
  { instrs := [
      { opcodeClass := .LDX, opcodeS := .imm, aluCode := .ADD, jmpCode := .JA, opcodeSz := .W
        opcodeMode := .MEM, srcReg := 1, dstReg := 0, offset := 16, imm := 0, wideInstr := false
        nextImm := 0, reloc := none },
      { opcodeClass := .JMP, opcodeS := .imm, aluCode := .ADD, jmpCode := .EXIT, opcodeSz := .W
        opcodeMode := .IMM, srcReg := 0, dstReg := 0, offset := 0, imm := 0, wideInstr := false
        nextImm := 0, reloc := none }]
    maps := [], progs := [], rodata := [] }

/-- The packet was received on queue `n`. -/
def onQueue (n : Nat) : ZModel :=
  Model.ofNats fun v => if v = .rxQueueIndex0 then some n else none

theorem queueProgram_held : ∃ cfg b, buildCfg queueProgram.instrs queueProgram.progs = .ok cfg ∧
    TrackPoint queueProgram cfg b ∧ b.Holds (.fresh 0 .rxQueueIndex) :=
  ⟨_, _, rfl, .mk .first rfl rfl 1 rfl, .reg 0 rfl⟩

theorem declared_size_bounds_iff_queue : ∃ cfg b t,
    buildCfg queueProgram.instrs queueProgram.progs = .ok cfg ∧
    TrackPoint queueProgram cfg b ∧ b.Holds (.fresh 0 .rxQueueIndex) ∧
    exprToZ3 none none (makeInitState []) .rxQueueIndex = .ok t ∧ t.toNat (onQueue 3) < 2 ^ 32 := by
  obtain ⟨cfg, b, hcfg, hb, ho⟩ := queueProgram_held
  have ht : exprToZ3 none none (makeInitState []) .rxQueueIndex =
      .ok ⟨64, (makeInitState []).rxIndex⟩ := by
    unfold exprToZ3
    rfl
  refine ⟨cfg, b, _, hcfg, hb, ho, ht, ?_⟩
  refine (declared_size_bounds_iff hcfg hb ho rfl (.inl rfl) none (makeInitState []) ht
    (onQueue 3)).mpr ?_
  intro field hfield
  cases hfield
  decide

/-- A queue index of 2^32 is held in four bytes. -/
theorem declared_size_exceeded : ∃ cfg b t,
    buildCfg queueProgram.instrs queueProgram.progs = .ok cfg ∧
    TrackPoint queueProgram cfg b ∧ b.Holds (.fresh 0 .rxQueueIndex) ∧
    (Expr.rxQueueIndex).size = 4 ∧
    exprToZ3 none none (makeInitState []) .rxQueueIndex = .ok t ∧
    ¬ t.toNat (onQueue (2 ^ 32)) < 2 ^ (8 * 4) := by
  obtain ⟨cfg, b, hcfg, hb, ho⟩ := queueProgram_held
  have ht : exprToZ3 none none (makeInitState []) .rxQueueIndex =
      .ok ⟨64, (makeInitState []).rxIndex⟩ := by
    unfold exprToZ3
    rfl
  refine ⟨cfg, b, _, hcfg, hb, ho, rfl, ht, ?_⟩
  decide

end Hornet
