import Hornet.Arith.Cells
import Hornet.Lib.Relate
import Hornet.Track.Guards

/-!
The lowering depends on the symbolic state through its values only. Two states
whose components have equal values give each expression terms of one number.
-/

namespace Hornet

open Smt Lib

variable {maps : List MapInfo} (m : ZModel)

/-- Terms of one number. Their widths may differ below 64 bits, since an
operation is lowered at a narrower width when an operand is a literal. -/
def Agree (t t' : ZBv) : Prop :=
  t.toNat m = t'.toNat m ∧ (t.size = t'.size ∨ t.size ≤ 64 ∧ t'.size ≤ 64)

/-- Terms of one width and one number. -/
def SameCell (t t' : ZBv) : Prop := t.size = t'.size ∧ t.toNat m = t'.toNat m

/-- States whose components have equal values. -/
structure Z3State.Agree (st st' : Z3State maps) : Prop where
  pkt : st.pkt.eval m = st'.pkt.eval m
  present : ∀ i, (st.map i).present.eval m = (st'.map i).present.eval m
  value : ∀ i, (st.map i).value.eval m = (st'.map i).value.eval m
  bss : ∀ k, (bssOf st k).eval m = (bssOf st' k).eval m
  pktLen : st.pktLen.eval m = st'.pktLen.eval m
  rxIndex : st.rxIndex.eval m = st'.rxIndex.eval m
  ingress : st.ingress.eval m = st'.ingress.eval m
  egress : st.egress.eval m = st'.egress.eval m

/-- Guards of one truth value that are known to be false together. -/
structure SameGuard (g g' : Guard) : Prop where
  value : g.eval m = g'.eval m
  known : g = .ff ↔ g' = .ff

/-- Hooks that give terms of one number and lower joins with the same guards. -/
structure Reads.Agree (R R' : Reads maps) : Prop where
  readPkt : ∀ e, Related (Option.Rel (Hornet.Agree m)) (R.readPkt e) (R'.readPkt e)
  readMap : ∀ e, Related (Option.Rel (Hornet.Agree m)) (R.readMap e) (R'.readMap e)
  readBss : ∀ e, Related (Option.Rel (Hornet.Agree m)) (R.readBss e) (R'.readBss e)
  readPresent : ∀ i k k' blk idx, k.eval m = k'.eval m →
    Related (fun p p' => p.eval m = p'.eval m) (R.readPresent i k blk idx)
      (R'.readPresent i k' blk idx)
  guardOf : ∀ e, SameGuard m (R.guardOf e) (R'.guardOf e)
  base : R.base = R'.base

section Terms

variable {m}

theorem SameCell.agree {t t' : ZBv} (h : SameCell m t t') : Agree m t t' := ⟨h.2, .inl h.1⟩

theorem SameGuard.refl (g : Guard) : SameGuard m g g := ⟨rfl, .rfl⟩

/-- The guard of a group of edges. -/
theorem sameGuard_orAll {f f' : Edge → Guard} (h : ∀ e, SameGuard m (f e) (f' e))
    (es : List Edge) : SameGuard m (.orAll (es.map f)) (.orAll (es.map f')) := by
  constructor
  · have hvalue : (fun e => (f e).eval m) = fun e => (f' e).eval m := funext fun e => (h e).value
    rw [Guard.eval_orAll, Guard.eval_orAll, List.any_map, List.any_map]
    exact congrArg es.any hvalue
  · simp only [Guard.orAll_eq_ff, List.forall_mem_map, (h _).known]

theorem Agree.refl (t : ZBv) : Agree m t t := ⟨rfl, .inl rfl⟩

theorem Agree.symm {t t' : ZBv} (h : Agree m t t') : Agree m t' t :=
  ⟨h.1.symm, h.2.imp Eq.symm And.symm⟩

theorem Z3State.Agree.refl (st : Z3State maps) : st.Agree m st :=
  ⟨rfl, fun _ => rfl, fun _ => rfl, fun _ => rfl, rfl, rfl, rfl, rfl⟩

theorem Z3State.Agree.trans {a b c : Z3State maps} (h : a.Agree m b) (h' : b.Agree m c) :
    a.Agree m c where
  pkt := h.pkt.trans h'.pkt
  present i := (h.present i).trans (h'.present i)
  value i := (h.value i).trans (h'.value i)
  bss k := (h.bss k).trans (h'.bss k)
  pktLen := h.pktLen.trans h'.pktLen
  rxIndex := h.rxIndex.trans h'.rxIndex
  ingress := h.ingress.trans h'.ingress
  egress := h.egress.trans h'.egress

/-- A term of a fixed width is its value. -/
theorem sameCell_of_eval {w : Nat} {t t' : ZTerm (.bv w)} (h : t.eval m = t'.eval m) :
    SameCell m ⟨w, t⟩ ⟨w, t'⟩ := ⟨rfl, congrArg BitVec.toNat h⟩

theorem agree_of_eval {w : Nat} {t t' : ZTerm (.bv w)} (h : t.eval m = t'.eval m) :
    Agree m ⟨w, t⟩ ⟨w, t'⟩ := (sameCell_of_eval h).agree

theorem Agree.resize {t t' : ZBv} (h : Agree m t t') (n : Nat) :
    (resize t n).eval m = (resize t' n).eval m := by
  rw [eval_resize, eval_resize, h.1]

theorem addrTerm_agree {vo vo' : Option ZBv} (h : Option.Rel (Agree m) vo vo') (d : Nat)
    (off : Int) : (addrTerm d off vo).eval m = (addrTerm d off vo').eval m := by
  cases h with
  | none => rfl
  | some h => simp only [addrTerm, Term.eval_bin, h.resize]

theorem cellsNat_same {cs cs' : List ZBv} (h : List.Forall₂ (SameCell m) cs cs') :
    cellsNat m cs = cellsNat m cs' := by
  induction h with
  | nil => rfl
  | cons hc _ ih => rw [cellsNat, cellsNat, hc.1, hc.2, ih]

theorem sizes_same {cs cs' : List ZBv} (h : List.Forall₂ (SameCell m) cs cs') :
    cs.map (·.size) = cs'.map (·.size) := by
  induction h with
  | nil => rfl
  | cons hc _ ih => rw [List.map_cons, List.map_cons, hc.1, ih]

theorem concatCells_same {cs cs' : List ZBv} (h : List.Forall₂ (SameCell m) cs cs') :
    Related (SameCell m) (concatCells cs) (concatCells cs') := by
  cases h with
  | nil => exact .error _
  | cons hc hcs =>
      refine .pure ⟨?_, ?_⟩
      · rw [size_concatLE, size_concatLE, sizes_same (.cons hc hcs)]
      · rw [toNat_concatLE, toNat_concatLE, cellsNat_same (.cons hc hcs)]

theorem selectBytes_same {d : Nat} {arr arr' : ZTerm (.array d (.bv 8))}
    {base base' : ZTerm (.bv d)} (harr : arr.eval m = arr'.eval m)
    (hbase : base.eval m = base'.eval m) (size : Nat) :
    List.Forall₂ (SameCell m) (selectBytes arr base size) (selectBytes arr' base' size) := by
  unfold selectBytes
  apply List.forall₂_map_left_iff.mpr
  apply List.forall₂_map_right_iff.mpr
  apply List.forall₂_same.mpr
  intro i _
  apply sameCell_of_eval
  simp only [Term.eval_select, Term.eval_bin, harr, hbase]

theorem extractBytesVar_same {w : Nat} {cur cur' offset offset' : ZTerm (.bv w)}
    (hcur : cur.eval m = cur'.eval m) (hoffset : offset.eval m = offset'.eval m) (size : Nat) :
    SameCell m (extractBytesVar cur offset size) (extractBytesVar cur' offset' size) := by
  unfold extractBytesVar
  apply sameCell_of_eval
  apply Agree.resize
  apply agree_of_eval
  simp only [Term.eval_bin, hcur, hoffset]

theorem mapValBytes_agree {w : Nat} {val val' : ZTerm (.bv w)} (hval : val.eval m = val'.eval m)
    {vo vo' : Option ZBv} (hvo : Option.Rel (Agree m) vo vo') (off : Int) (size : Nat) :
    Related (Agree m) (mapValBytes val off vo size) (mapValBytes val' off vo' size) := by
  cases hvo with
  | some hv =>
      refine .pure (SameCell.agree ?_)
      apply extractBytesVar_same hval
      simp only [Term.eval_bin, hv.resize]
  | none =>
      unfold mapValBytes
      dsimp only
      split
      · exact .error _
      · split
        · exact .pure (.refl _)
        · refine .pure (agree_of_eval ?_)
          apply Agree.resize
          apply agree_of_eval
          simp only [Term.eval_extract, hval]

theorem funcRetvalTerm_agree (r : FuncRetval Expr) {ok ok' : Option (ZTerm .bool)}
    (h : Option.Rel (fun c c' => c.eval m = c'.eval m) ok ok') :
    Agree m (funcRetvalTerm r ok) (funcRetvalTerm r ok') := by
  unfold funcRetvalTerm
  dsimp only
  split
  · cases h with
    | none => exact .refl _
    | some h =>
        apply agree_of_eval
        simp only [Term.eval_ite, h]
  · exact .refl _

theorem aluUnary_agree (op : AluOp) (opcodeS : OpSrc) (imm : Int) (size : Nat) (alu64 : Bool)
    {d d' : ZBv} (hd : Agree m d d') :
    Related (Agree m) (aluUnary op opcodeS imm size alu64 d) (aluUnary op opcodeS imm size alu64 d') := by
  cases op with
  | NEG =>
      refine .pure (agree_of_eval ?_)
      simp only [Term.eval_neg, hd.resize]
  | MOV =>
      refine .pure (agree_of_eval ?_)
      simp only [Term.eval_signExt, Term.eval_extract, hd.resize]
  | END =>
      simp only [aluUnary]
      split
      · apply Related.mono (concatCells_same ?_) fun _ _ => SameCell.agree
        rw [← List.map_reverse, ← List.map_reverse]
        apply List.forall₂_map_left_iff.mpr
        apply List.forall₂_map_right_iff.mpr
        apply List.forall₂_same.mpr
        intro i _
        apply sameCell_of_eval
        simp only [Term.eval_extract, hd.resize]
      · refine .pure (agree_of_eval ?_)
        simp only [Term.eval_extract, hd.resize]
  | _ => exact .error _

theorem aluBinary_agree (op : AluOp) (offset : Int) (size : AluSize) {d d' s s' : ZBv}
    (hd : Agree m d d') (hs : Agree m s s') :
    Related (Agree m) (aluBinary op offset size d s) (aluBinary op offset size d' s') := by
  by_cases hop : op.isBinary
  · cases size with
    | b8 =>
        obtain ⟨t, ht, hsize, hval⟩ := aluBinary_b8 m hop offset d s
        obtain ⟨t', ht', hsize', hval'⟩ := aluBinary_b8 m hop offset d' s'
        rw [ht, ht']
        refine .ok ⟨?_, .inr ⟨hsize, hsize'⟩⟩
        rw [hval, hval', hd.1, hs.1]
    | b4 =>
        obtain ⟨t, ht, hsize, hval⟩ := aluBinary_b4 m hop offset d s
        obtain ⟨t', ht', hsize', hval'⟩ := aluBinary_b4 m hop offset d' s'
        rw [ht, ht']
        refine .ok ⟨?_, .inl (hsize.trans hsize'.symm)⟩
        rw [hval, hval', hd.1, hs.1]
  · cases op with
    | NEG | MOV | END | code_e | code_f => exact .error _
    | _ => exact absurd rfl hop

end Terms

section Lower

variable {m}

abbrev HooksAgree (m : ZModel) (R R' : Option (Reads maps)) : Prop := Option.Rel (Reads.Agree m) R R'

/-- What the hooks know about a read. -/
theorem hook_agree {R R' : Option (Reads maps)} {f : Reads maps → Except LowerError (Option ZBv)}
    (hf : ∀ S S' : Reads maps, S.Agree m S' → Related (Option.Rel (Agree m)) (f S) (f S')) :
    HooksAgree m R R' → Related (Option.Rel (Agree m))
      (match R with | some R => f R | none => pure none)
      (match R' with | some R => f R | none => pure none)
  | .none => .pure .none
  | .some h => hf _ _ h

theorem containTerm_agree {R R' : Option (Reads maps)} (hR : HooksAgree m R R')
    {st st' : Z3State maps} (hst : st.Agree m st') (blk : Option Nat) (mapId : Nat) {key key' : ZBv}
    (hkey : Agree m key key') (mapKeyId : Option Int) (result : Bool) :
    Related (fun c c' => c.eval m = c'.eval m) (containTerm R blk st mapId key mapKeyId result)
      (containTerm R' blk st' mapId key' mapKeyId result) := by
  unfold containTerm
  dsimp only
  have hk := hkey.resize (keyBits maps mapId)
  split
  · refine .pure ?_
    cases result <;> simp [hk]
  · cases hR with
    | none =>
        refine .pure ?_
        simp only [Term.eval_iff, Term.eval_select, hst.present, hk]
    | some h =>
        refine Related.bind (h.readPresent mapId _ _ blk mapKeyId hk) fun p p' hp => ?_
        refine .pure ?_
        simp only [Term.eval_iff, hp]

/-- The arms of a join have the same guards and equal values. -/
abbrev SameArms (m : ZModel) (xs ys : List (Guard × ZTerm (.bv 64))) : Prop :=
  List.Forall₂ (fun x y => x.1.eval m = y.1.eval m ∧ x.2.eval m = y.2.eval m) xs ys

theorem ifChain_agree {x y : Guard × ZTerm (.bv 64)} {xs ys : List (Guard × ZTerm (.bv 64))}
    (h : SameArms m (x :: xs) (y :: ys)) : (ifChain x xs).eval m = (ifChain y ys).eval m := by
  induction xs generalizing x y ys with
  | nil =>
      obtain ⟨hxy, hrest⟩ := List.forall₂_cons.mp h
      cases hrest
      exact hxy.2
  | cons x' xs ih =>
      obtain ⟨hxy, hrest⟩ := List.forall₂_cons.mp h
      cases hrest with
      | cons hx' hxs =>
          obtain ⟨g, t⟩ := x
          obtain ⟨g', t'⟩ := y
          simp only [ifChain, Guard.eval_ite, hxy, ih (.cons hx' hxs)]

/-- A join has the term of its arms. -/
theorem joinTerm_agree (blockIdx : Nat) (regNum : Int)
    {arms arms' : Except LowerError (List (Guard × ZTerm (.bv 64)))}
    (h : Related (SameArms m) arms arms') :
    Related (Agree m)
      (do match ← arms with
        | [] => pure ⟨64, .var (.phi blockIdx regNum) (.bv 64)⟩
        | x :: xs => pure ⟨64, ifChain x xs⟩)
      (do match ← arms' with
        | [] => pure ⟨64, .var (.phi blockIdx regNum) (.bv 64)⟩
        | x :: xs => pure ⟨64, ifChain x xs⟩) := by
  refine Related.bind h fun xs ys hxs => ?_
  cases hxs with
  | nil => exact .pure (.refl _)
  | cons hx hxs => exact .pure (agree_of_eval (ifChain_agree (.cons hx hxs)))

/-- A read takes what the hooks know, and else what the state holds. -/
theorem hookOr_agree {o o' : Except LowerError (Option ZBv)} {rest rest' : Except LowerError ZBv}
    (ho : Related (Option.Rel (Agree m)) o o') (hrest : Related (Agree m) rest rest') :
    Related (Agree m)
      (do match ← o with
        | some t => pure t
        | none => rest)
      (do match ← o' with
        | some t => pure t
        | none => rest') := by
  refine Related.bind ho fun x y hxy => ?_
  cases hxy with
  | none => exact hrest
  | some h => exact .pure h

/-- The bytes of an array at an offset. -/
theorem bytesAt_agree {d : Nat} {arr arr' : ZTerm (.array d (.bv 8))}
    (harr : arr.eval m = arr'.eval m) {vo vo' : Except LowerError (Option ZBv)}
    (hvo : Related (Option.Rel (Agree m)) vo vo') (off : Int) (size : Nat) :
    Related (Agree m)
      (vo >>= fun vo => concatCells (selectBytes arr (addrTerm d off vo) size))
      (vo' >>= fun vo => concatCells (selectBytes arr' (addrTerm d off vo) size)) := by
  refine Related.bind hvo fun v v' hv => ?_
  exact (concatCells_same (selectBytes_same harr (addrTerm_agree hv _ off) size)).mono
    fun _ _ => SameCell.agree

/-- The bytes of a map value under a key. -/
theorem valueAt_agree {st st' : Z3State maps} (hst : st.Agree m st') (mapId : Nat)
    {key key' : Except LowerError ZBv} (hkey : Related (Agree m) key key')
    {vo vo' : Except LowerError (Option ZBv)} (hvo : Related (Option.Rel (Agree m)) vo vo')
    (off : Int) (size : Nat) :
    Related (Agree m)
      (do
        let k ← key
        let vo ← vo
        mapValBytes (.select (st.map mapId).value (resize k (keyBits maps mapId))) off vo size)
      (do
        let k ← key'
        let vo ← vo'
        mapValBytes (.select (st'.map mapId).value (resize k (keyBits maps mapId))) off vo size) := by
  refine Related.bind hkey fun k k' hk => ?_
  refine Related.bind hvo fun v v' hv => ?_
  apply mapValBytes_agree _ hv
  simp only [Term.eval_select, hst.value, hk.resize]

/-- The bytes of a sequence of cells. -/
theorem seqBytes_agree {cells cells' : Except LowerError (List ZBv)}
    (h : Related (List.Forall₂ (SameCell m)) cells cells') (size off : Nat) :
    Related (Agree m)
      (do
        let cells ← cells
        let whole ← concatCells cells
        let whole : ZBv :=
          if off = 0 then whole
          else ⟨whole.size, .bin .lshr whole.term (bvVal (off * 8) whole.size)⟩
        pure ⟨size * 8, resize whole (size * 8)⟩)
      (do
        let cells ← cells'
        let whole ← concatCells cells
        let whole : ZBv :=
          if off = 0 then whole
          else ⟨whole.size, .bin .lshr whole.term (bvVal (off * 8) whole.size)⟩
        pure ⟨size * 8, resize whole (size * 8)⟩) := by
  refine Related.bind h fun cs cs' hcs => ?_
  refine Related.bind (concatCells_same hcs) fun t t' ht => ?_
  refine .pure (agree_of_eval ?_)
  apply Agree.resize
  split
  · exact ht.agree
  · obtain ⟨w, t⟩ := t
    obtain ⟨w', t'⟩ := t'
    obtain ⟨hw, hval⟩ := ht
    obtain rfl : w = w' := hw
    apply agree_of_eval
    simp only [Term.eval_bin, BitVec.eq_of_toNat_eq hval]

mutual

/-- Agreeing states and hooks give a value agreeing terms. -/
theorem exprToZ3_agree {R R' : Option (Reads maps)} (hR : HooksAgree m R R') {st st' : Z3State maps}
    (hst : st.Agree m st') (blk : Option Nat) :
    (e : Expr) → Related (Agree m) (exprToZ3 R blk st e) (exprToZ3 R' blk st' e)
  | .scalar .. => .pure (.refl _)
  | .joinValue blockIdx regNum values edges => by
      cases hR with
      | none => exact .pure (.refl _)
      | some h => exact joinTerm_agree blockIdx regNum (phiArms_agree h values edges)
  | .ingressIfindex => .pure (agree_of_eval hst.ingress)
  | .rxQueueIndex => .pure (agree_of_eval hst.rxIndex)
  | .egressIfindex => .pure (agree_of_eval hst.egress)
  | .pktLen .. => .pure (agree_of_eval hst.pktLen)
  | .funcRetval r => by
      obtain ⟨size, idx, func, block, mapId, mapKey, mapKeyId, fallback, redirects⟩ := r
      unfold exprToZ3
      dsimp only
      split
      · cases mapId with
        | none => exact .pure (.refl _)
        | some mapId =>
            cases mapKey with
            | none => exact .pure (.refl _)
            | some k =>
                refine Related.bind (exprToZ3_agree hR hst blk k) fun t t' ht => ?_
                refine Related.bind (containTerm_agree hR hst blk mapId ht _ _) fun c c' hc => ?_
                exact .pure (funcRetvalTerm_agree _ (.some hc))
      · exact .pure (.refl _)
  | .pktVal block idx off varOff size => by
      simp only [exprToZ3]
      refine hookOr_agree (hook_agree (fun S S' h => h.readPkt _) hR) ?_
      exact bytesAt_agree hst.pkt (optToZ3_agree hR hst blk varOff) off size
  | .mapVal block idx mapId mapKey mapKeyId off varOff size => by
      simp only [exprToZ3]
      refine hookOr_agree (hook_agree (fun S S' h => h.readMap _) hR) ?_
      cases mapId with
      | none => exact .error _
      | some mapId =>
          exact valueAt_agree hst mapId (someToZ3_agree hR hst blk mapKey)
            (optToZ3_agree hR hst blk varOff) off size
  | .bssVal block idx bssKey off varOff size => by
      simp only [exprToZ3]
      refine hookOr_agree (hook_agree (fun S S' h => h.readBss _) hR) ?_
      exact bytesAt_agree (hst.bss bssKey) (optToZ3_agree hR hst blk varOff) off size
  | .rodataVal data off varOff size => by
      simp only [exprToZ3]
      exact bytesAt_agree rfl (optToZ3_agree hR hst blk varOff) off size
  | .lookupHit none _ _ => .pure (.refl _)
  | .lookupHit (some _) none _ => .pure (.refl _)
  | .lookupHit (some mapId) (some k) mapKeyId => by
      unfold exprToZ3
      dsimp only
      refine Related.bind (exprToZ3_agree hR hst blk k) fun t t' ht => ?_
      refine Related.bind (containTerm_agree hR hst blk mapId ht _ _) fun c c' hc => ?_
      refine .pure (agree_of_eval ?_)
      simp only [Term.eval_ite, hc]
  | .num .. => .pure (.refl _)
  | .byteSeq chunks size off => by
      simp only [exprToZ3]
      exact seqBytes_agree (chunksToZ3_agree hR hst blk chunks) size off
  | .unary op dst opcodeS imm size alu64 => by
      simp only [exprToZ3]
      refine Related.bind (someToZ3_agree hR hst blk dst) fun d d' hd => ?_
      exact aluUnary_agree op opcodeS imm size alu64 hd
  | .binary op dst src offset size idx => by
      simp only [exprToZ3]
      refine Related.bind (someToZ3_agree hR hst blk dst) fun d d' hd => ?_
      refine Related.bind (someToZ3_agree hR hst blk src) fun s s' hs => ?_
      exact aluBinary_agree op offset size hd hs
  | .ptr _ => .error _

theorem optToZ3_agree {R R' : Option (Reads maps)} (hR : HooksAgree m R R') {st st' : Z3State maps}
    (hst : st.Agree m st') (blk : Option Nat) :
    (e : Option Expr) → Related (Option.Rel (Agree m)) (optToZ3 R blk st e) (optToZ3 R' blk st' e)
  | none => .pure .none
  | some e => by
      simp only [optToZ3]
      exact Related.bind (exprToZ3_agree hR hst blk e) fun t t' ht => .pure (.some ht)

theorem someToZ3_agree {R R' : Option (Reads maps)} (hR : HooksAgree m R R') {st st' : Z3State maps}
    (hst : st.Agree m st') (blk : Option Nat) :
    (e : Option Expr) → Related (Agree m) (someToZ3 R blk st e) (someToZ3 R' blk st' e)
  | none => .error _
  | some e => exprToZ3_agree hR hst blk e

theorem chunksToZ3_agree {R R' : Option (Reads maps)} (hR : HooksAgree m R R')
    {st st' : Z3State maps} (hst : st.Agree m st') (blk : Option Nat) :
    (cs : List (Option Expr)) →
      Related (List.Forall₂ (SameCell m)) (chunksToZ3 R blk st cs) (chunksToZ3 R' blk st' cs)
  | [] => .pure .nil
  | none :: cs => by
      simp only [chunksToZ3]
      refine Related.bind (chunksToZ3_agree hR hst blk cs) fun ts ts' hts => ?_
      exact .pure (.cons ⟨rfl, rfl⟩ hts)
  | some c :: cs => by
      simp only [chunksToZ3]
      refine Related.bind (exprToZ3_agree hR hst blk c) fun t t' ht => ?_
      refine Related.bind (chunksToZ3_agree hR hst blk cs) fun ts ts' hts => ?_
      exact .pure (.cons (sameCell_of_eval (ht.resize 64)) hts)

theorem phiArms_agree {R R' : Reads maps} (hR : R.Agree m R') :
    (vs : List (Option Expr)) → (ess : List (List Edge)) →
      Related (SameArms m) (phiArms R vs ess) (phiArms R' vs ess)
  | [], _ => by simp only [phiArms]; exact .pure .nil
  | _ :: _, [] => by simp only [phiArms]; exact .pure .nil
  | v :: vs, es :: ess => by
      have hguard := sameGuard_orAll hR.guardOf es
      simp only [phiArms, hguard.known]
      split
      · exact phiArms_agree hR vs ess
      · have hbase : R.base.Agree m R'.base := hR.base ▸ .refl _
        refine Related.bind (someToZ3_agree (.some hR) hbase none v) fun t t' ht => ?_
        refine Related.bind (phiArms_agree hR vs ess) fun ts ts' hts => ?_
        exact .pure (.cons ⟨hguard.value, ht.resize 64⟩ hts)

end

end Lower

end Hornet
