import Hornet.Bpf.Cfg
import Hornet.Lib.Fold

/-!
What every graph that `buildCfg` accepts looks like: the predecessor list of a
block names its incoming edges one by one, the taken edge of a predecessor before
its fall-through edge, and a block that does not branch has at most one successor.
-/

namespace Hornet

/-- The part of a block that says where it lies and where it leads. -/
structure Links where
  num : Nat
  start : Nat
  «end» : Nat
  succT : Option Nat
  succF : Option Nat
  branch : Bool
  deriving DecidableEq, Repr

def Block.links (b : Block) : Links :=
  ⟨b.num, b.start, b.end, b.succT, b.succF, b.branch⟩

/-- The edges from a block to block `j`, each named by the block they leave. -/
def Links.edgesTo (p : Links) (j : Nat) : List Nat :=
  (p.succT.toList ++ p.succF.toList).filterMap fun s => if s = j then some p.num else none

/-- The sources of the edges into block `j`. -/
def incoming (blocks : List Block) (j : Nat) : List Nat :=
  blocks.flatMap fun b => b.links.edgesTo j

theorem incoming_of_links {blocks blocks' : List Block}
    (h : blocks.map Block.links = blocks'.map Block.links) (j : Nat) :
    incoming blocks j = incoming blocks' j := by
  have hmap : ∀ bs : List Block,
      incoming bs j = (bs.map Block.links).flatMap (·.edgesTo j) := fun bs => by
    rw [List.flatMap_map, incoming]
  rw [hmap, hmap, h]

/-- The blocks form a graph: they are numbered in order, and the predecessor
lists and the successor fields describe the same edges. -/
structure WellLinked (blocks : List Block) : Prop where
  num : ∀ (i : Nat) (b : Block), blocks[i]? = some b → b.num = i
  preds : ∀ (i : Nat) (b : Block), blocks[i]? = some b → b.preds = incoming blocks i
  single : ∀ b ∈ blocks, b.branch = false → b.succT = none ∨ b.succF = none

section AddPred

variable (blocks : List Block) (pred succ : Nat)

theorem links_addPred : (addPred blocks pred succ).map Block.links = blocks.map Block.links := by
  unfold addPred
  apply List.ext_getElem?
  intro i
  simp only [List.getElem?_map, List.getElem?_modify]
  split <;> cases blocks[i]? <;> rfl

theorem preds_addPred (j : Nat) :
    ((addPred blocks pred succ)[j]?).map (·.preds) =
      (blocks[j]?).map fun b => b.preds ++ if succ = j then [pred] else [] := by
  unfold addPred
  rw [List.getElem?_modify]
  split <;> cases blocks[j]? <;> simp

theorem links_addPreds (succs : List Nat) :
    (succs.foldl (addPred · pred) blocks).map Block.links = blocks.map Block.links := by
  induction succs generalizing blocks with
  | nil => rfl
  | cons s succs ih => rw [List.foldl_cons, ih, links_addPred]

theorem preds_addPreds (succs : List Nat) (j : Nat) :
    ((succs.foldl (addPred · pred) blocks)[j]?).map (·.preds) =
      (blocks[j]?).map fun b =>
        b.preds ++ succs.filterMap fun s => if s = j then some pred else none := by
  induction succs generalizing blocks with
  | nil => simp
  | cons s succs ih =>
      rw [List.foldl_cons, ih]
      have hone := preds_addPred blocks pred s j
      cases hb : blocks[j]? with
      | none =>
          rw [hb] at hone
          simp only [Option.map_none, Option.map_eq_none_iff] at hone ⊢
          exact hone
      | some b =>
          rw [hb] at hone
          obtain ⟨c, hc, hpreds⟩ := Option.map_eq_some_iff.mp hone
          rw [hc, Option.map_some, Option.map_some, hpreds, List.append_assoc]
          by_cases h : s = j <;> simp [h]

end AddPred

/-- The state of the loop before block `i` is ended. -/
structure LinkedTo (instrs : List Instr) (progs : List ProgRegion) (starts : List Nat)
    (i : Nat) (blocks : List Block) : Prop where
  length : blocks.length = starts.length
  num : ∀ (j : Nat) (b : Block), blocks[j]? = some b → b.num = j
  start : ∀ (j : Nat) (b : Block), blocks[j]? = some b → starts[j]? = some b.start
  preds : ∀ (j : Nat) (b : Block), blocks[j]? = some b → b.preds = incoming blocks j
  later : ∀ (j : Nat) (b : Block), i ≤ j → blocks[j]? = some b →
    b.succT = none ∧ b.succF = none ∧ b.branch = false
  ended : ∀ (j : Nat) (b : Block), j < i → blocks[j]? = some b →
    ∃ e, blockEnd instrs progs starts b.num b.start b.end = .ok e ∧ b.succT = e.succT ∧
      b.succF = e.succF ∧ b.branch = e.branch

theorem linkedTo_cutBlocks (instrs : List Instr) (progs : List ProgRegion) (starts : List Nat) :
    LinkedTo instrs progs starts 0 (cutBlocks instrs starts) := by
  have hget : ∀ (j : Nat) (b : Block), (cutBlocks instrs starts)[j]? = some b →
      starts[j]? = some b.start ∧ b.num = j ∧ b.preds = [] ∧ b.succT = none ∧ b.succF = none ∧
        b.branch = false := by
    intro j b hb
    simp only [cutBlocks, List.getElem?_map, List.getElem?_zipIdx, Option.map_map] at hb
    obtain ⟨s, hs, rfl⟩ := Option.map_eq_some_iff.mp hb
    simp [hs]
  have hnone : ∀ b ∈ cutBlocks instrs starts, b.succT = none ∧ b.succF = none := by
    intro b hb
    obtain ⟨j, hj⟩ := List.getElem?_of_mem hb
    exact ⟨(hget j b hj).2.2.2.1, (hget j b hj).2.2.2.2.1⟩
  refine ⟨by simp [cutBlocks], fun j b hb => (hget j b hb).2.1, fun j b hb => (hget j b hb).1,
    ?_, fun j b _ hb => (hget j b hb).2.2.2, fun j b hj _ => absurd hj (Nat.not_lt_zero j)⟩
  intro j b hb
  rw [(hget j b hb).2.2.1]
  symm
  simp only [incoming, List.flatMap_eq_nil_iff]
  intro c hc
  obtain ⟨hT, hF⟩ := hnone c hc
  simp [Block.links, Links.edgesTo, hT, hF]

theorem edgesTo_eq_nil {b : Block} (hT : b.succT = none) (hF : b.succF = none) (j : Nat) :
    b.links.edgesTo j = [] := by
  simp [Block.links, Links.edgesTo, hT, hF]

/-- Ending a block behind which no edge is known yet appends its edges. -/
theorem incoming_modify {blocks : List Block} {i : Nat} {b b' : Block} (f : Block → Block)
    (hb : blocks[i]? = some b) (hf : f b = b')
    (hlater : ∀ (j : Nat) (c : Block), i ≤ j → blocks[j]? = some c →
      c.succT = none ∧ c.succF = none) (j : Nat) :
    incoming (blocks.modify i f) j = incoming blocks j ++ b'.links.edgesTo j := by
  obtain ⟨hi, hbi⟩ := List.getElem?_eq_some_iff.mp hb
  have hrest : (blocks.drop (i + 1)).flatMap (fun c => c.links.edgesTo j) = [] := by
    simp only [List.flatMap_eq_nil_iff]
    intro c hc
    obtain ⟨k, hk⟩ := List.getElem?_of_mem hc
    rw [List.getElem?_drop] at hk
    obtain ⟨hT, hF⟩ := hlater _ c (by omega) hk
    exact edgesTo_eq_nil hT hF j
  have hnone : b.links.edgesTo j = [] := by
    obtain ⟨hT, hF⟩ := hlater i b (Nat.le_refl i) hb
    exact edgesTo_eq_nil hT hF j
  have hsplit : incoming blocks j = (blocks.take i).flatMap (fun c => c.links.edgesTo j) := by
    unfold incoming
    conv_lhs => rw [← List.take_append_drop i blocks, List.drop_eq_getElem_cons hi, hbi]
    rw [List.flatMap_append, List.flatMap_cons, hrest, hnone]
    simp
  rw [hsplit]
  unfold incoming
  rw [List.modify_eq_take_cons_drop hi, hbi, hf, List.flatMap_append, List.flatMap_cons, hrest,
    List.append_nil]

/-- A block after block `i` was ended: its links and its predecessors. -/
theorem getElem?_linked {blocks : List Block} {i j : Nat} {e : BlockEnd} {c : Block}
    (hc : ((e.succT.toList ++ e.succF.toList).foldl (addPred · i)
      (blocks.modify i (·.endWith e)))[j]? = some c) :
    ∃ b, blocks[j]? = some b ∧ c.links = (if i = j then b.endWith e else b).links ∧
      c.preds = b.preds ++ (e.succT.toList ++ e.succF.toList).filterMap
        fun s => if s = j then some i else none := by
  have hlinks := congrArg (·[j]?)
    (links_addPreds (blocks.modify i (·.endWith e)) i (e.succT.toList ++ e.succF.toList))
  have hpreds := preds_addPreds (blocks.modify i (·.endWith e)) i
    (e.succT.toList ++ e.succF.toList) j
  simp only [List.getElem?_map, hc, Option.map_some, List.getElem?_modify] at hlinks hpreds
  cases hb : blocks[j]? with
  | none => simp [hb] at hlinks
  | some b =>
      simp only [hb, Option.map_some, Option.map_eq_map, Option.some.injEq] at hlinks hpreds
      refine ⟨b, rfl, hlinks, ?_⟩
      rw [hpreds]
      split <;> rfl

theorem linkedTo_linkBlock {instrs : List Instr} {progs : List ProgRegion} {starts : List Nat}
    {i : Nat} {blocks blocks' : List Block} (h : LinkedTo instrs progs starts i blocks)
    (hrun : linkBlock instrs progs starts blocks i = .ok blocks') :
    LinkedTo instrs progs starts (i + 1) blocks' := by
  unfold linkBlock at hrun
  split at hrun
  · rename_i hnone
    obtain rfl : blocks = blocks' := by simpa [pure, Except.pure] using hrun
    have hlen : blocks.length ≤ i := List.getElem?_eq_none_iff.mp hnone
    refine ⟨h.length, h.num, h.start, h.preds, fun j b hj => h.later j b (by omega), ?_⟩
    intro j b hj hb
    have hlt := (List.getElem?_eq_some_iff.mp hb).1
    exact h.ended j b (by omega) hb
  · rename_i b hb
    obtain ⟨e, he, hset⟩ := Lib.bind_eq_ok.mp hrun
    obtain rfl := Except.ok.inj hset
    have hnum : b.num = i := h.num i b hb
    have hincoming : ∀ j, incoming ((e.succT.toList ++ e.succF.toList).foldl (addPred · i)
        (blocks.modify i (·.endWith e))) j = incoming blocks j ++ (b.endWith e).links.edgesTo j := by
      intro j
      rw [incoming_of_links (links_addPreds _ i _) j]
      exact incoming_modify (·.endWith e) hb rfl
        (fun k c hk hc => ⟨(h.later k c hk hc).1, (h.later k c hk hc).2.1⟩) j
    refine ⟨?_, ?_, ?_, ?_, ?_, ?_⟩
    · have hlen := congrArg List.length (links_addPreds (blocks.modify i (·.endWith e)) i
        (e.succT.toList ++ e.succF.toList))
      simpa [h.length] using hlen
    · intro j c hc
      obtain ⟨b', hb', hlinks, -⟩ := getElem?_linked hc
      rw [← h.num j b' hb']
      have := congrArg Links.num hlinks
      split at this <;> exact this
    · intro j c hc
      obtain ⟨b', hb', hlinks, -⟩ := getElem?_linked hc
      rw [h.start j b' hb']
      have := congrArg Links.start hlinks
      split at this <;> exact congrArg some this.symm
    · intro j c hc
      obtain ⟨b', hb', -, hpreds⟩ := getElem?_linked hc
      rw [hpreds, hincoming, h.preds j b' hb']
      simp [Block.links, Links.edgesTo, Block.endWith, hnum]
    · intro j c hj hc
      obtain ⟨b', hb', hlinks, -⟩ := getElem?_linked hc
      rw [if_neg (by omega)] at hlinks
      simp only [Block.links, Links.mk.injEq] at hlinks
      obtain ⟨-, -, -, hT, hF, hbranch⟩ := hlinks
      rw [hT, hF, hbranch]
      exact h.later j b' (by omega) hb'
    · intro j c hj hc
      obtain ⟨b', hb', hlinks, -⟩ := getElem?_linked hc
      simp only [Block.links, Links.mk.injEq] at hlinks
      by_cases hij : i = j
      · subst hij
        obtain rfl : b = b' := Option.some.inj (hb.symm.trans hb')
        rw [if_pos rfl] at hlinks
        obtain ⟨hn, hs, hend, hT, hF, hbranch⟩ := hlinks
        refine ⟨e, ?_, hT, hF, hbranch⟩
        rw [hn, hs, hend]
        exact he
      · rw [if_neg hij] at hlinks
        obtain ⟨hn, hs, hend, hT, hF, hbranch⟩ := hlinks
        rw [hn, hs, hend, hT, hF, hbranch]
        exact h.ended j b' (by omega) hb'

theorem linkedTo_markEntry {instrs : List Instr} {progs : List ProgRegion} {starts : List Nat}
    {i : Nat} {blocks blocks' : List Block} {region : ProgRegion}
    (h : LinkedTo instrs progs starts i blocks)
    (hrun : markEntry starts blocks region = .ok blocks') :
    LinkedTo instrs progs starts i blocks' := by
  unfold markEntry at hrun
  split at hrun
  · cases hrun
  · rename_i entry _
    obtain rfl := Except.ok.inj hrun
    split
    · exact h
    · have hget : ∀ (j : Nat) (c : Block),
          (blocks.modify entry fun b => { b with progEntry := some region })[j]? = some c →
          ∃ b, blocks[j]? = some b ∧ c.links = b.links ∧ c.preds = b.preds := by
        intro j c hc
        rw [List.getElem?_modify] at hc
        obtain ⟨b, hb, rfl⟩ := Option.map_eq_some_iff.mp hc
        refine ⟨b, hb, ?_, ?_⟩ <;> split <;> rfl
      have hincoming : ∀ j, incoming
          (blocks.modify entry fun b => { b with progEntry := some region }) j =
          incoming blocks j := by
        intro j
        apply incoming_of_links
        apply List.ext_getElem?
        intro k
        simp only [List.getElem?_map, List.getElem?_modify]
        split <;> cases blocks[k]? <;> rfl
      refine ⟨by simpa using h.length, ?_, ?_, ?_, ?_, ?_⟩
      · intro j c hc
        obtain ⟨b, hb, hlinks, -⟩ := hget j c hc
        exact (congrArg Links.num hlinks).trans (h.num j b hb)
      · intro j c hc
        obtain ⟨b, hb, hlinks, -⟩ := hget j c hc
        rw [h.start j b hb]
        exact congrArg some (congrArg Links.start hlinks).symm
      · intro j c hc
        obtain ⟨b, hb, -, hpreds⟩ := hget j c hc
        rw [hpreds, hincoming, h.preds j b hb]
      · intro j c hj hc
        obtain ⟨b, hb, hlinks, -⟩ := hget j c hc
        simp only [Block.links, Links.mk.injEq] at hlinks
        obtain ⟨-, -, -, hT, hF, hbranch⟩ := hlinks
        rw [hT, hF, hbranch]
        exact h.later j b hj hb
      · intro j c hj hc
        obtain ⟨b, hb, hlinks, -⟩ := hget j c hc
        simp only [Block.links, Links.mk.injEq] at hlinks
        obtain ⟨hn, hs, hend, hT, hF, hbranch⟩ := hlinks
        rw [hn, hs, hend, hT, hF, hbranch]
        exact h.ended j b hj hb

/-- Every block of an accepted graph has been ended by its last instruction. -/
theorem linkedTo_buildCfg {instrs : List Instr} {progs : List ProgRegion} {blocks : List Block}
    (h : buildCfg instrs progs = .ok blocks) :
    LinkedTo instrs progs (leaders instrs progs) (leaders instrs progs).length blocks := by
  obtain ⟨linked, hlink, hmark⟩ := Lib.bind_eq_ok.mp h
  have hlinked := Lib.foldlM_range_ok (LinkedTo instrs progs (leaders instrs progs))
    (linkedTo_cutBlocks instrs progs _) (fun _ _ _ _ hi hrun => linkedTo_linkBlock hi hrun) hlink
  exact Lib.foldlM_ok
    (fun _ => LinkedTo instrs progs (leaders instrs progs) (leaders instrs progs).length)
    hlinked (fun _ _ _ _ hs _ hrun => linkedTo_markEntry hs hrun) hmark

/-- Whether the instruction that ends a block branches to the next instruction
whichever way it goes. -/
def jumpsToNext (instrs : List Instr) (progs : List ProgRegion) (start «end» : Nat) : Prop :=
  ∃ last, instrs[«end»]? = some last ∧
    ((last.isBranch ∧ last.offset = 0) ∨
      (last.isTailCall ∧ ∃ r, tailTarget instrs start «end» progs = .ok r ∧ r.start = «end» + 1))

section BlockEnd

variable {instrs : List Instr} {progs : List ProgRegion} {starts : List Nat}
  {num start «end» : Nat} {e : BlockEnd}

theorem fallsInto_ok {e' : BlockEnd} (h : fallsInto starts «end» e = .ok e') :
    blockStartMap starts («end» + 1) = e'.succF ∧ e' = { e with succF := e'.succF } := by
  unfold fallsInto at h
  split at h
  · rename_i hnext
    obtain rfl := Except.ok.inj h
    exact ⟨hnext, rfl⟩
  · cases h

theorem tailCallEnd_ok (h : tailCallEnd instrs progs starts start «end» = .ok e) :
    e.branch = true ∧ ∃ r, tailTarget instrs start «end» progs = .ok r ∧
      e.succT = blockStartMap starts r.start ∧ e.succF = blockStartMap starts («end» + 1) := by
  obtain ⟨r, hr, h⟩ := Lib.bind_eq_ok.mp h
  split at h
  · rename_i succ hsucc
    obtain ⟨hnext, he⟩ := fallsInto_ok h
    rw [he]
    exact ⟨rfl, r, hr, hsucc.symm, hnext.symm⟩
  · cases h

theorem branchEnd_ok {last : Instr} (h : branchEnd starts num «end» last = .ok e) :
    e.branch = true ∧ e.succT = blockStartMap starts («end» + 1 + last.offset) ∧
      e.succF = blockStartMap starts («end» + 1) := by
  unfold branchEnd at h
  split at h
  · cases h
  · rename_i succ hsucc
    obtain ⟨e', he', h⟩ := Lib.bind_eq_ok.mp h
    split at h
    · cases h
    · obtain rfl := Except.ok.inj h
      obtain ⟨hnext, he⟩ := fallsInto_ok he'
      rw [he]
      exact ⟨rfl, hsucc.symm, hnext.symm⟩

/-- The ways a block can end. -/
theorem blockEnd_cases (h : blockEnd instrs progs starts num start «end» = .ok e) :
    ∃ last, instrs[«end»]? = some last ∧
      ((¬last.isBranch ∧ ¬last.isTailCall ∧ e.branch = false ∧
          (e.succT = none ∨ e.succF = none)) ∨
        (last.isBranch ∧ ¬last.isTailCall ∧ e.branch = true ∧
          e.succT = blockStartMap starts («end» + 1 + last.offset) ∧
          e.succF = blockStartMap starts («end» + 1)) ∨
        (¬last.isBranch ∧ last.isTailCall ∧ e.branch = true ∧
          ∃ r, tailTarget instrs start «end» progs = .ok r ∧
            e.succT = blockStartMap starts r.start ∧
            e.succF = blockStartMap starts («end» + 1))) := by
  unfold blockEnd at h
  split at h
  · cases h
  · rename_i last hlast
    refine ⟨last, hlast, ?_⟩
    split at h
    · rename_i hjump
      unfold jumpEnd at h
      split at h
      · rename_i hcode
        split at h
        · obtain rfl := Except.ok.inj h
          exact .inl (by simp [Instr.isBranch, Instr.isTailCall, Instr.isCall, hcode])
        · cases h
      · rename_i hcode
        split at h
        · rename_i htail
          exact .inr (.inr ⟨by simp [Instr.isBranch, hcode], htail, tailCallEnd_ok h⟩)
        · rename_i htail
          obtain ⟨-, he⟩ := fallsInto_ok h
          exact .inl ⟨by simp [Instr.isBranch, hcode], htail, by rw [he], .inl (by rw [he])⟩
      · rename_i hcode
        obtain rfl := Except.ok.inj h
        exact .inl (by simp [Instr.isBranch, Instr.isTailCall, Instr.isCall, hcode])
      · rename_i hJA hCALL hEXIT
        refine .inr (.inl ⟨?_, ?_, branchEnd_ok h⟩)
        · simp only [Instr.isBranch, hjump, Bool.true_and, Bool.not_eq_true', Bool.or_eq_false_iff,
            decide_eq_false_iff_not]
          exact ⟨⟨hJA, hCALL⟩, hEXIT⟩
        · intro htail
          simp only [Instr.isTailCall, Instr.isCall, Bool.and_eq_true, decide_eq_true_eq] at htail
          exact hCALL htail.1.1.2
    · rename_i hjump
      obtain rfl := Except.ok.inj h
      exact .inl (by simp [Instr.isBranch, Instr.isTailCall, Instr.isCall, hjump])

theorem blockStartMap_eq_some {target : Int} {i : Nat} (h : blockStartMap starts target = some i) :
    ∃ t, starts[i]? = some t ∧ target = t := by
  unfold blockStartMap at h
  split at h
  · rename_i hpos
    obtain ⟨hi, ht, -⟩ := List.idxOf?_eq_some_iff.mp h
    refine ⟨target.toNat, ?_, by omega⟩
    rw [List.getElem?_eq_getElem hi]
    simpa using ht
  · cases h

theorem blockStartMap_getElem? (hstarts : starts.Nodup) {t i : Nat} (h : starts[i]? = some t) :
    blockStartMap starts t = some i := by
  obtain ⟨hi, ht⟩ := List.getElem?_eq_some_iff.mp h
  unfold blockStartMap
  rw [if_pos (by omega), List.idxOf?_eq_some_iff]
  refine ⟨hi, by simp [ht], fun k hk hkt => ?_⟩
  have hkt : starts[k] = starts[i] := by
    rw [ht]
    simpa using hkt
  have hki := (hstarts.getElem_inj_iff).mp hkt
  omega

/-- Both edges of a block lead to one block exactly when its last instruction
branches to the next one. -/
theorem both_succ_iff (hstarts : starts.Nodup) {j : Nat}
    (h : blockEnd instrs progs starts num start «end» = .ok e) :
    (e.succT = some j ∧ e.succF = some j) ↔
      (jumpsToNext instrs progs start «end» ∧ starts[j]? = some («end» + 1)) := by
  obtain ⟨last, hlast, ⟨hbr, htail, -, hnone⟩ | ⟨hbr, htail, -, hT, hF⟩ |
    ⟨hbr, htail, -, r, hr, hT, hF⟩⟩ := blockEnd_cases h
  · constructor
    · rintro ⟨hT, hF⟩
      rcases hnone with hnone | hnone
      · rw [hnone] at hT
        cases hT
      · rw [hnone] at hF
        cases hF
    · rintro ⟨⟨last', hlast', hbr' | htail'⟩, -⟩
      · obtain rfl := Option.some.inj (hlast.symm.trans hlast')
        exact absurd hbr'.1 hbr
      · obtain rfl := Option.some.inj (hlast.symm.trans hlast')
        exact absurd htail'.1 htail
  · constructor
    · rintro ⟨hTj, hFj⟩
      obtain ⟨t, ht, htarget⟩ := blockStartMap_eq_some (hT.symm.trans hTj)
      obtain ⟨t', ht', hnext⟩ := blockStartMap_eq_some (hF.symm.trans hFj)
      obtain rfl := Option.some.inj (ht.symm.trans ht')
      refine ⟨⟨last, hlast, .inl ⟨hbr, by omega⟩⟩, ?_⟩
      rw [ht]
      congr 1
      omega
    · rintro ⟨⟨last', hlast', ⟨-, hoff⟩ | htail'⟩, hj⟩
      · obtain rfl := Option.some.inj (hlast.symm.trans hlast')
        have hnext := blockStartMap_getElem? hstarts hj
        rw [hT, hF, hoff]
        simpa using hnext
      · obtain rfl := Option.some.inj (hlast.symm.trans hlast')
        exact absurd htail'.1 htail
  · constructor
    · rintro ⟨hTj, hFj⟩
      obtain ⟨t, ht, htarget⟩ := blockStartMap_eq_some (hT.symm.trans hTj)
      obtain ⟨t', ht', hnext⟩ := blockStartMap_eq_some (hF.symm.trans hFj)
      obtain rfl := Option.some.inj (ht.symm.trans ht')
      refine ⟨⟨last, hlast, .inr ⟨htail, r, hr, by omega⟩⟩, ?_⟩
      rw [ht]
      congr 1
      omega
    · rintro ⟨⟨last', hlast', hbr' | ⟨-, r', hr', hstart⟩⟩, hj⟩
      · obtain rfl := Option.some.inj (hlast.symm.trans hlast')
        exact absurd hbr'.1 hbr
      · obtain rfl := Except.ok.inj (hr.symm.trans hr')
        have hnext := blockStartMap_getElem? hstarts hj
        rw [hT, hF, hstart]
        exact ⟨hnext, by simpa using hnext⟩

theorem nodup_leaders (instrs : List Instr) (progs : List ProgRegion) :
    (leaders instrs progs).Nodup := by
  unfold leaders
  exact (List.perm_insertionSort _ _).nodup_iff.mpr (List.nodup_dedup _)

end BlockEnd

/-- Every accepted graph is well linked. -/
theorem wellLinked_buildCfg {instrs : List Instr} {progs : List ProgRegion} {blocks : List Block}
    (h : buildCfg instrs progs = .ok blocks) : WellLinked blocks := by
  have hlinked := linkedTo_buildCfg h
  refine ⟨hlinked.num, hlinked.preds, fun b hb hbranch => ?_⟩
  obtain ⟨i, hi⟩ := List.getElem?_of_mem hb
  have hlt := (List.getElem?_eq_some_iff.mp hi).1
  obtain ⟨e, he, hT, hF, hbr⟩ := hlinked.ended i b (hlinked.length ▸ hlt) hi
  rw [hT, hF]
  obtain ⟨last, -, hend | ⟨-, -, hend, -⟩ | ⟨-, -, hend, -⟩⟩ := blockEnd_cases he
  · exact hend.2.2.2
  · rw [hbr, hend] at hbranch
    cases hbranch
  · rw [hbr, hend] at hbranch
    cases hbranch

end Hornet
