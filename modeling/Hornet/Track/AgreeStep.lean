import Hornet.Track.Agree
import Hornet.Track.Effects

/-!
Branch conditions and actions in agreeing states: a condition has one truth
value in both, and an action turns them into agreeing states.
-/

namespace Hornet

open Smt Lib

variable {maps : List MapInfo} (m : ZModel)

section Conditions

variable {m}

/-- A term at least as wide as the number has it. -/
theorem toNat_resize_of_le {t : ZBv} {n : Nat} (h : t.size ≤ n) :
    ((resize t n).eval m).toNat = t.toNat m := by
  rw [toNat_resize]
  exact Nat.mod_eq_of_lt (toNat_lt_of_size m h)

/-- Unsigned comparisons at a width that holds both operands compare numbers. -/
theorem eval_cmp_unsigned {op : CmpOp} (hop : op ≠ .slt ∧ op ≠ .sle) {d s : ZBv} {n : Nat}
    (hd : d.size ≤ n) (hs : s.size ≤ n) :
    op.eval ((resize d n).eval m) ((resize s n).eval m) =
      match op with
      | .eq => decide (d.toNat m = s.toNat m)
      | .ult => decide (d.toNat m < s.toNat m)
      | _ => decide (d.toNat m ≤ s.toNat m) := by
  have hd' := toNat_resize_of_le (m := m) hd
  have hs' := toNat_resize_of_le (m := m) hs
  cases op with
  | eq =>
      have heq := BitVec.toNat_inj (x := (resize d n).eval m) (y := (resize s n).eval m)
      rw [hd', hs'] at heq
      simp only [CmpOp.eval, heq]
      rfl
  | ult => simp only [CmpOp.eval, BitVec.ult, hd', hs']
  | ule => simp only [CmpOp.eval, BitVec.ule, hd', hs']
  | slt => exact absurd rfl hop.1
  | sle => exact absurd rfl hop.2

/-- A width at which two comparisons agree: the same, or one that holds the operands. -/
def Fair (n n' : Nat) (d d' s s' : ZBv) : Prop :=
  n = n' ∨ (d.size ≤ n ∧ s.size ≤ n) ∧ d'.size ≤ n' ∧ s'.size ≤ n'

/-- A comparison of operands that agree, at the same width or at fair ones. -/
theorem cmp_agree {op : CmpOp} {d d' s s' : ZBv} (hd : Agree m d d') (hs : Agree m s s')
    {n n' : Nat} (hn : n = n' ∨ (op ≠ .slt ∧ op ≠ .sle) ∧ Fair n n' d d' s s') :
    op.eval ((resize d n).eval m) ((resize s n).eval m) =
      op.eval ((resize d' n').eval m) ((resize s' n').eval m) := by
  rcases hn with rfl | ⟨hop, rfl | ⟨⟨h1, h2⟩, h3, h4⟩⟩
  · rw [hd.resize, hs.resize]
  · rw [hd.resize, hs.resize]
  · rw [eval_cmp_unsigned hop h1 h2, eval_cmp_unsigned hop h3 h4, hd.1, hs.1]

/-- So is the test of a mask. -/
theorem mask_agree {d d' s s' : ZBv} (hd : Agree m d d') (hs : Agree m s s') {n n' : Nat}
    (hn : Fair n n' d d' s s') :
    ((resize d n).eval m &&& (resize s n).eval m == BitVec.ofInt n 0) =
      ((resize d' n').eval m &&& (resize s' n').eval m == BitVec.ofInt n' 0) := by
  rcases hn with rfl | ⟨⟨h1, h2⟩, h3, h4⟩
  · rw [hd.resize, hs.resize]
  · have hmask : ∀ {a b : ZBv} {k : Nat}, a.size ≤ k → b.size ≤ k →
        ((resize a k).eval m &&& (resize b k).eval m == BitVec.ofInt k 0) =
          decide (a.toNat m &&& b.toNat m = 0) := by
      intro a b k ha hb
      rw [Bool.eq_iff_iff, beq_iff_eq, decide_eq_true_iff, ← BitVec.toNat_inj, BitVec.toNat_and,
        toNat_resize_of_le ha, toNat_resize_of_le hb]
      simp
    rw [hmask h1 h2, hmask h3 h4, hd.1, hs.1]

theorem cmpTerm_agree (code : JmpOp) (jmp32 : Bool) {d d' s s' : ZBv} (hd : Agree m d d')
    (hs : Agree m s s') :
    Related (fun (c c' : ZTerm .bool) => c.eval m = c'.eval m) (cmpTerm code d s jmp32)
      (cmpTerm code d' s' jmp32) := by
  have hwide : max (max d.size s.size) 64 = max (max d'.size s'.size) 64 := by
    obtain ⟨-, hd⟩ := hd
    obtain ⟨-, hs⟩ := hs
    omega
  have hfair : Fair (max d.size s.size) (max d'.size s'.size) d d' s s' :=
    .inr ⟨⟨le_max_left _ _, le_max_right _ _⟩, le_max_left _ _, le_max_right _ _⟩
  have hrev : Fair (max d.size s.size) (max d'.size s'.size) s s' d d' :=
    .inr ⟨⟨le_max_right _ _, le_max_left _ _⟩, le_max_right _ _, le_max_left _ _⟩
  cases jmp32 with
  | true =>
      cases code with
      | JSGT | JSGE | JGT | JGE => exact .pure (cmp_agree hs hd (.inl rfl))
      | JSLT | JSLE | JLT | JLE | JEQ => exact .pure (cmp_agree hd hs (.inl rfl))
      | JNE => exact .pure (congrArg Bool.not (cmp_agree hd hs (.inl rfl)))
      | JSET => exact .pure (congrArg Bool.not (mask_agree hd hs (.inl rfl)))
      | _ => exact .error _
  | false =>
      cases code with
      | JSGT | JSGE => exact .pure (cmp_agree hs hd (.inl hwide))
      | JSLT | JSLE => exact .pure (cmp_agree hd hs (.inl hwide))
      | JGT | JGE => exact .pure (cmp_agree hs hd (.inr ⟨⟨by simp, by simp⟩, hrev⟩))
      | JLT | JLE | JEQ => exact .pure (cmp_agree hd hs (.inr ⟨⟨by simp, by simp⟩, hfair⟩))
      | JNE =>
          exact .pure (congrArg Bool.not (cmp_agree hd hs (.inr ⟨⟨by simp, by simp⟩, hfair⟩)))
      | JSET => exact .pure (congrArg Bool.not (mask_agree hd hs hfair))
      | _ => exact .error _

/-- A test of a tail call's index, at the width of the index. -/
theorem tailTest_agree {t t' : ZBv} (ht : Agree m t t') {slot : Nat}
    (hwidth : t.size = t'.size ∨ slot < 2 ^ t.size ∧ slot < 2 ^ t'.size) :
    (Term.cmp .eq t.term (bvVal slot t.size)).eval m =
      (Term.cmp .eq t'.term (bvVal slot t'.size)).eval m := by
  have htest : ∀ t : ZBv, (Term.cmp .eq t.term (bvVal slot t.size)).eval m =
      decide (t.toNat m = slot % 2 ^ t.size) := by
    intro t
    have hnum := BitVec.toNat_inj (x := t.term.eval m) (y := BitVec.ofNat t.size slot)
    rw [BitVec.toNat_ofNat] at hnum
    have hslot : (bvVal slot t.size).eval m = BitVec.ofNat t.size slot := BitVec.ofInt_natCast ..
    rw [Term.eval_cmp, hslot, Bool.eq_iff_iff, decide_eq_true_iff]
    exact beq_iff_eq.trans hnum.symm
  rw [htest, htest, ht.1]
  rcases hwidth with hsize | ⟨h, h'⟩
  · rw [hsize]
  · rw [Nat.mod_eq_of_lt h, Nat.mod_eq_of_lt h']

/-- What `toZ3` makes of a condition agrees. The index of a tail call is compared at its
own width, which has to be the same or to hold the slot. -/
theorem condition_agree {R R' : Option (Reads maps)} (hR : HooksAgree m R R')
    {st st' : Z3State maps} (hst : st.Agree m st') (blk : Option Nat) (c : Condition)
    (htail : ∀ mapId e slot idx, c = .tailCallTaken mapId (some e) (some slot) idx → ∀ t t',
      exprToZ3 R blk st e = .ok t → exprToZ3 R' blk st' e = .ok t' →
        t.size = t'.size ∨ slot < 2 ^ t.size ∧ slot < 2 ^ t'.size) :
    Related (fun g g' : Guard => g.eval m = g'.eval m) (c.toZ3 R blk st) (c.toZ3 R' blk st') := by
  cases c with
  | cmp code dst src jmp32 =>
      simp only [Condition.toZ3]
      split
      · exact .pure rfl
      · refine Related.bind (someToZ3_agree hR hst blk src) fun s s' hs => ?_
        refine Related.bind (someToZ3_agree hR hst blk dst) fun d d' hd => ?_
        exact Related.bind (cmpTerm_agree code jmp32 hd hs) fun t t' ht => .pure ht
  | adjustHeadCheck result idx =>
      simp only [Condition.toZ3]
      split
      · exact .pure rfl
      · exact .pure rfl
  | containMapValue mapId mapKey mapKeyId result =>
      cases mapId with
      | none => exact .pure rfl
      | some mapId =>
          cases mapKey with
          | none => exact .pure rfl
          | some k =>
              refine Related.bind (exprToZ3_agree hR hst blk k) fun t t' ht => ?_
              exact Related.bind (containTerm_agree hR hst blk mapId ht _ _) fun c c' hc => .pure hc
  | tailCallTaken mapId index slot idx =>
      cases slot with
      | none => exact .pure rfl
      | some slot =>
          cases index with
          | none => exact .pure rfl
          | some e =>
              have hindex := exprToZ3_agree hR hst blk e
              have hwidth := htail mapId e slot idx rfl
              simp only [Condition.toZ3]
              revert hindex hwidth
              generalize exprToZ3 R blk st e = x
              generalize exprToZ3 R' blk st' e = x'
              intro hindex hwidth
              cases hindex with
              | error _ => exact .error _
              | ok ht => exact .pure (tailTest_agree ht (hwidth _ _ rfl rfl))

end Conditions

section Actions

variable {m} {R R' : Option (Reads maps)} {st st' : Z3State maps}

/-- The same bytes are stored at the same place. -/
theorem storeBytes_agree {d : Nat} {arr arr' : ZTerm (.array d (.bv 8))} {base base' : ZTerm (.bv d)}
    (harr : arr.eval m = arr'.eval m) (hbase : base.eval m = base'.eval m) (size : Nat)
    {val val' : ZTerm (.bv (size * 8))} (hval : val.eval m = val'.eval m) :
    (storeBytes arr base size val).eval m = (storeBytes arr' base' size val').eval m := by
  unfold storeBytes
  generalize List.range size = xs
  induction xs generalizing arr arr' with
  | nil => exact harr
  | cons i xs ih =>
      apply ih
      funext j
      simp only [Term.eval_store, Term.eval_bin, Term.eval_extract, harr, hbase, hval]
      rfl

theorem concat_same {n : Nat} {hi hi' : ZTerm (.bv n)} (hhi : hi.eval m = hi'.eval m) {lo lo' : ZBv}
    (hlo : SameCell m lo lo') :
    SameCell m ⟨n + lo.size, .concat _ rfl hi lo.term⟩ ⟨n + lo'.size, .concat _ rfl hi' lo'.term⟩ := by
  obtain ⟨w, t⟩ := lo
  obtain ⟨w', t'⟩ := lo'
  obtain ⟨hw, hval⟩ := hlo
  obtain rfl : w = w' := hw
  apply sameCell_of_eval
  simp only [Term.eval_concat, hhi, BitVec.eq_of_toNat_eq hval]

/-- Bytes spliced into a word at a constant place. -/
theorem spliceBytes_agree {w : Nat} {cur cur' : ZTerm (.bv w)} (hcur : cur.eval m = cur'.eval m)
    (offset size : Nat) {v v' : ZBv} (hv : Agree m v v') :
    (spliceBytes cur offset size v).eval m = (spliceBytes cur' offset size v').eval m := by
  unfold spliceBytes
  dsimp only
  split
  · exact hcur
  · have hlow : ∀ n, SameCell m
        (if offset * 8 > 0 then
          ⟨n + offset * 8, .concat _ rfl (resize v n) (.extract 0 (offset * 8) cur)⟩
        else ⟨n, resize v n⟩ : ZBv)
        (if offset * 8 > 0 then
          ⟨n + offset * 8, .concat _ rfl (resize v' n) (.extract 0 (offset * 8) cur')⟩
        else ⟨n, resize v' n⟩ : ZBv) := by
      intro n
      split
      · apply sameCell_of_eval
        simp only [Term.eval_concat, Term.eval_extract, hcur, hv.resize]
      · exact sameCell_of_eval (hv.resize n)
    apply Agree.resize
    apply SameCell.agree
    have hl := hlow (min ((offset + size) * 8) w - offset * 8)
    split
    · apply concat_same _ hl
      simp only [Term.eval_extract, hcur]
    · exact hl

theorem spliceBytesVar_agree {w : Nat} {cur cur' offset offset' : ZTerm (.bv w)}
    (hcur : cur.eval m = cur'.eval m) (hoffset : offset.eval m = offset'.eval m) (size : Nat)
    {v v' : ZBv} (hv : Agree m v v') :
    (spliceBytesVar cur offset size v).eval m = (spliceBytesVar cur' offset' size v').eval m := by
  have hcompl : ∀ {t t' : ZTerm (.bv w)}, t.eval m = t'.eval m →
      (Term.compl t).eval m = (Term.compl t').eval m := fun h => congrArg (~~~ ·) h
  simp only [spliceBytesVar, Term.eval_bin, hcur, hoffset, hv.resize]
  rw [hcompl]
  simp only [Term.eval_bin, hoffset]

/-- A map with arrays that agree. -/
theorem Z3State.Agree.setMap (hst : st.Agree m st') (i : Nat) {a b : MapArrays maps i}
    (hpresent : a.present.eval m = b.present.eval m) (hvalue : a.value.eval m = b.value.eval m) :
    (st.setMap i a).Agree m (st'.setMap i b) := by
  refine { hst with present := fun j => ?_, value := fun j => ?_ }
  · by_cases hj : j = i
    · subst hj
      simp only [Z3State.setMap, Function.update_self, hpresent]
    · simp only [Z3State.setMap, Function.update_of_ne hj, hst.present j]
  · by_cases hj : j = i
    · subst hj
      simp only [Z3State.setMap, Function.update_self, hvalue]
    · simp only [Z3State.setMap, Function.update_of_ne hj, hst.value j]

theorem bssOf_setBss (s : Z3State maps) (key : String) (arr : BssArray) (k : Option String) :
    bssOf (s.setBss key arr) k = if k = some key then arr else bssOf s k := by
  cases k with
  | none => rfl
  | some k =>
      by_cases hk : k = key
      · subst hk
        simp [bssOf, Z3State.setBss]
      · simp [bssOf, Z3State.setBss, hk]

theorem Z3State.Agree.setBss (hst : st.Agree m st') (key : String) {a b : BssArray} (h : a.eval m = b.eval m) :
    (st.setBss key a).Agree m (st'.setBss key b) := by
  refine { hst with bss := fun k => ?_ }
  rw [bssOf_setBss, bssOf_setBss]
  split
  · exact h
  · exact hst.bss k

/-- A store to an entry of a map. -/
theorem mapStore_agree (hst : st.Agree m st') (i : Nat) {k k' : ZTerm (.bv (keyBits maps i))}
    (hk : k.eval m = k'.eval m) {v v' : ZTerm (.bv (valBits maps i))} (hv : v.eval m = v'.eval m)
    (markPresent : Bool) :
    (mapStore st i k v markPresent).Agree m (mapStore st' i k' v' markPresent) := by
  unfold mapStore
  apply hst.setMap
  · split
    · funext j
      simp only [Term.eval_store, hst.present, hk, Term.eval_boolVal]
    · exact hst.present i
  · funext j
    simp only [Term.eval_store, hst.value, hk, hv]

theorem mapKeyZ3_agree (hR : HooksAgree m R R') (hst : st.Agree m st') (blk : Option Nat) (i : Nat)
    (key : Option Expr) :
    Related (fun k k' : ZTerm (.bv (keyBits maps i)) => k.eval m = k'.eval m)
      (mapKeyZ3 R blk st i key) (mapKeyZ3 R' blk st' i key) :=
  Related.bind (someToZ3_agree hR hst blk key) fun _ _ ht => .pure (ht.resize _)

/-- A write to the packet keeps the agreement. -/
theorem pktWrite_agree (hR : HooksAgree m R R') (hst : st.Agree m st') (blk : Option Nat)
    (off : Int) (varOff : Option Expr) (size : Nat) (value : Option Expr) :
    Related (Z3State.Agree m) (pktWriteToZ3 R blk st off varOff size value)
      (pktWriteToZ3 R' blk st' off varOff size value) := by
  refine Related.bind (optToZ3_agree hR hst blk varOff) fun vo vo' hvo => ?_
  refine Related.bind (someToZ3_agree hR hst blk value) fun v v' hv => ?_
  refine .pure { hst with pkt := ?_ }
  exact storeBytes_agree hst.pkt (addrTerm_agree hvo _ off) size (hv.resize _)

/-- A write to an entry keeps the agreement. -/
theorem mapWrite_agree (hR : HooksAgree m R R') (hst : st.Agree m st') (blk : Option Nat)
    (i : Nat) (mapKey : Option Expr) (off : Int) (size : Nat) (value varOff : Option Expr) :
    Related (Z3State.Agree m) (mapWriteToZ3 R blk st i mapKey off size value varOff)
      (mapWriteToZ3 R' blk st' i mapKey off size value varOff) := by
  refine Related.bind (mapKeyZ3_agree hR hst blk i mapKey) fun k k' hk => ?_
  refine Related.bind (someToZ3_agree hR hst blk value) fun v v' hv => ?_
  refine Related.bind (optToZ3_agree hR hst blk varOff) fun vo vo' hvo => ?_
  have hcur : (Term.select (st.map i).value k).eval m = (Term.select (st'.map i).value k').eval m := by
    simp only [Term.eval_select, hst.value, hk]
  cases hvo with
  | some h =>
      refine .pure (mapStore_agree hst i hk ?_ false)
      apply spliceBytesVar_agree hcur _ size hv
      simp only [Term.eval_bin, h.resize]
  | none =>
      dsimp only
      split
      · exact .error _
      · exact .pure (mapStore_agree hst i hk (spliceBytes_agree hcur _ size hv) false)

theorem mapAtomicAdd_agree (hR : HooksAgree m R R') (hst : st.Agree m st') (blk : Option Nat)
    (i : Nat) (mapKey : Option Expr) (off : Int) (size : Nat) (value varOff : Option Expr) :
    Related (Z3State.Agree m) (mapAtomicAddToZ3 R blk st i mapKey off size value varOff)
      (mapAtomicAddToZ3 R' blk st' i mapKey off size value varOff) := by
  refine Related.bind (mapKeyZ3_agree hR hst blk i mapKey) fun k k' hk => ?_
  refine Related.bind (optToZ3_agree hR hst blk varOff) fun vo vo' hvo => ?_
  have hcur : (Term.select (st.map i).value k).eval m = (Term.select (st'.map i).value k').eval m := by
    simp only [Term.eval_select, hst.value, hk]
  cases hvo with
  | @some o o' h =>
      refine Related.bind (someToZ3_agree hR hst blk value) fun v v' hv => ?_
      have hbase : (Term.bin .add (resize o (valBits maps i)) (bvVal off (valBits maps i))).eval m =
          (Term.bin .add (resize o' (valBits maps i)) (bvVal off (valBits maps i))).eval m := by
        simp only [Term.eval_bin, h.resize]
      refine .pure (mapStore_agree hst i hk ?_ false)
      apply spliceBytesVar_agree hcur hbase size
      have hfield := extractBytesVar_same hcur hbase size
      apply agree_of_eval
      simp only [Term.eval_bin, hv.resize]
      exact congrArg (· + _) (BitVec.eq_of_toNat_eq hfield.2)
  | none =>
      dsimp only
      split
      · exact .error _
      · split
        · exact .error _
        · refine Related.bind (someToZ3_agree hR hst blk value) fun v v' hv => ?_
          refine .pure (mapStore_agree hst i hk ?_ false)
          apply spliceBytes_agree hcur
          apply agree_of_eval
          simp only [Term.eval_bin, Term.eval_extract, hv.resize, hcur]

/-- Whether an update takes effect depends on the presence of its key only. -/
theorem updateApplies_agree (flags : Option Int) (idx : Int) {p p' : ZTerm .bool}
    (hp : p.eval m = p'.eval m) :
    updateApplies flags idx p = updateApplies flags idx p' ∧ (∀ t, updateApplies flags idx p ≠ .term t) ∨
    ∃ t t', updateApplies flags idx p = .term t ∧ updateApplies flags idx p' = .term t' ∧
      t.eval m = t'.eval m := by
  unfold updateApplies
  cases flags with
  | none => exact .inr ⟨_, _, rfl, rfl, rfl⟩
  | some flags =>
      dsimp only
      split
      · exact .inl ⟨rfl, by simp⟩
      · split
        · exact .inr ⟨_, _, rfl, rfl, by simp only [Term.eval_not, hp]⟩
        · split
          · exact .inr ⟨_, _, rfl, rfl, hp⟩
          · exact .inl ⟨rfl, by simp⟩

/-- An update keeps the agreement. -/
theorem mapUpdate_agree (hR : HooksAgree m R R') (hst : st.Agree m st') (blk : Option Nat)
    (i : Nat) (mapKey value : Option Expr) (flags : Option Int) (idx : Int) :
    Related (Z3State.Agree m) (mapUpdateToZ3 R blk st i mapKey value flags idx)
      (mapUpdateToZ3 R' blk st' i mapKey value flags idx) := by
  refine Related.bind (mapKeyZ3_agree hR hst blk i mapKey) fun k k' hk => ?_
  refine Related.bind (someToZ3_agree hR hst blk value) fun v v' hv => ?_
  have hval := hv.resize (valBits maps i)
  have hpresent : (if isArrayMap maps i || isProgMap maps i then
        .cmp .ult k (bvVal (maxEntries maps i) (keyBits maps i))
      else .select (st.map i).present k : ZTerm .bool).eval m =
      (if isArrayMap maps i || isProgMap maps i then
        .cmp .ult k' (bvVal (maxEntries maps i) (keyBits maps i))
      else .select (st'.map i).present k' : ZTerm .bool).eval m := by
    split
    · simp only [Term.eval_cmp, hk]
    · simp only [Term.eval_select, hst.present, hk]
  dsimp only
  rcases updateApplies_agree flags idx hpresent with ⟨heq, hnot⟩ | ⟨ok, ok', h, h', hok⟩
  · rw [heq] at hnot ⊢
    split
    · exact .pure hst
    · exact .pure (mapStore_agree hst i hk hval true)
    · rename_i ok hok
      exact absurd hok (hnot ok)
  · rw [h, h']
    refine .pure (hst.setMap i ?_ ?_)
    · split
      · funext j
        simp only [Term.eval_store, Term.eval_or, hst.present, hk, hok, hpresent]
      · exact hst.present i
    · funext j
      simp only [Term.eval_store, Term.eval_ite, Term.eval_select, hst.value, hk, hok, hval]

theorem mapDelete_agree (hR : HooksAgree m R R') (hst : st.Agree m st') (blk : Option Nat)
    (i : Nat) (mapKey : Option Expr) :
    Related (Z3State.Agree m) (mapDeleteToZ3 R blk st i mapKey)
      (mapDeleteToZ3 R' blk st' i mapKey) := by
  unfold mapDeleteToZ3
  split
  · refine Related.bind (mapKeyZ3_agree hR hst blk i mapKey) fun k k' hk => ?_
    refine .pure (hst.setMap i ?_ (hst.value i))
    funext j
    simp only [Term.eval_store, hst.present, hk]
  · exact .pure hst

theorem bssWrite_agree (hR : HooksAgree m R R') (hst : st.Agree m st') (blk : Option Nat)
    (key : String) (off : Int) (size : Nat) (value varOff : Option Expr) :
    Related (Z3State.Agree m) (bssWriteToZ3 R blk st key off size value varOff)
      (bssWriteToZ3 R' blk st' key off size value varOff) := by
  refine Related.bind (optToZ3_agree hR hst blk varOff) fun vo vo' hvo => ?_
  refine Related.bind (someToZ3_agree hR hst blk value) fun v v' hv => ?_
  refine .pure (hst.setBss key ?_)
  exact storeBytes_agree (hst.bss _) (addrTerm_agree hvo _ off) _ (hv.resize _)

theorem adjustLen_agree (hst : st.Agree m st') (delta : Int) (idx : Int) :
    (adjustLen st delta idx).Agree m (adjustLen st' delta idx) := by
  refine { hst with pktLen := ?_ }
  unfold adjustLen
  dsimp only
  split
  · simp only [Term.eval_bin, hst.pktLen]
  · simp only [Term.eval_ite, Term.eval_bin, hst.pktLen]

/-- Agreeing states and hooks turn into agreeing states under an action. -/
theorem event_agree (hR : HooksAgree m R R') (hst : st.Agree m st') (blk : Option Nat) (e : Event) :
    Related (Z3State.Agree m) (e.toZ3 R blk st) (e.toZ3 R' blk st') := by
  unfold Event.toZ3
  split
  · exact pktWrite_agree hR hst blk _ _ _ _
  · exact mapWrite_agree hR hst blk _ _ _ _ _ _
  · exact mapAtomicAdd_agree hR hst blk _ _ _ _ _ _
  · exact mapUpdate_agree hR hst blk _ _ _ _ _
  · exact mapDelete_agree hR hst blk _ _
  · exact bssWrite_agree hR hst blk _ _ _ _ _
  · exact bssWrite_agree hR hst blk _ _ _ _ _
  · exact .pure (adjustLen_agree hst _ _)
  · exact .pure (adjustLen_agree hst _ _)
  · refine Related.bind (someToZ3_agree hR hst blk _) fun v v' hv => ?_
    exact .pure { hst with rxIndex := hv.resize 64 }
  · exact .pure hst

end Actions

end Hornet
