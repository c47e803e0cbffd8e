import Hornet.Bpf.Layout
import Hornet.Lib.Dict
import Hornet.Verify.Live

/-!
The facts that a report gives about the graph of a program. Its search for loops is its
own, apart from the one that orders the walk; both are exact.
-/

namespace Hornet

structure BlockFact where
  num : Nat
  succT : Option Nat
  succF : Option Nat
  deriving DecidableEq, Repr

def blockFact (b : Block) : BlockFact where
  num := b.num
  succT := b.succT
  succF := b.succF

section Loops

variable (facts : List BlockFact)

def BlockFact.succs (b : BlockFact) : List Nat := b.succT.toList ++ b.succF.toList

def factSuccs : Lib.Dict Nat (List Nat) := .ofList (facts.map fun b => (b.num, b.succs))

/-- The edges that lead back to the path of a depth-first search from block 0. -/
def backEdges : List (Nat × Nat) :=
  Lib.Frames.run (factSuccs facts).get? (facts.length * 3 + 1)
    (Lib.Frames.start (factSuccs facts).get? 0)

end Loops

section Exact

variable {blocks : List Block}

theorem mem_succs_blockFact {b : Block} {u : Nat} :
    u ∈ (blockFact b).succs ↔ u ∈ successors b := by
  simp only [BlockFact.succs, blockFact, successors, List.mem_append, Option.mem_toList]
  split
  · rename_i hsame
    simp [hsame]
  · simp

/-- The dictionary finds the blocks under their numbers. -/
theorem get?_factSuccs (blocks : List Block)
    (hnum : ∀ (i : Nat) (b : Block), blocks[i]? = some b → b.num = i) (a : Nat) :
    (factSuccs (blocks.map blockFact)).get? a = blocks[a]?.map fun b => (blockFact b).succs := by
  induction blocks using List.reverseRecOn with
  | nil => simp [factSuccs, Lib.Dict.ofList]
  | append_singleton blocks b ih =>
      have hb : b.num = blocks.length := hnum blocks.length b (by simp)
      have hsplit : factSuccs ((blocks ++ [b]).map blockFact) =
          (factSuccs (blocks.map blockFact)).set b.num (blockFact b).succs := by
        simp [factSuccs, Lib.Dict.ofList, blockFact]
      rw [hsplit, Lib.Dict.get?_set, hb, ih]
      · split
        · rename_i heq
          simp [heq]
        · rename_i hne
          rcases Nat.lt_or_gt_of_ne hne with hlt | hgt
          · rw [List.getElem?_append_left hlt]
          · rw [List.getElem?_eq_none (by omega), List.getElem?_eq_none (by simp; omega)]
      · intro i c hc
        apply hnum i c
        rw [List.getElem?_append_left (List.getElem?_eq_some_iff.mp hc).1]
        exact hc

/-- The edges that the search for loops follows. -/
theorem edge_factSuccs (hnum : ∀ (i : Nat) (b : Block), blocks[i]? = some b → b.num = i)
    {a b : Nat} :
    Lib.Frames.Edge (factSuccs (blocks.map blockFact)).get? a b ↔
      b ∈ succsOf blocks a ∧ b < blocks.length := by
  unfold Lib.Frames.Edge Lib.Frames.nodesAfter succsOf
  rw [List.mem_filter, get?_factSuccs blocks hnum, get?_factSuccs blocks hnum]
  cases blocks[a]? with
  | none => simp
  | some block => simp [mem_succs_blockFact]

/-- A path that ends at a block of the graph stays in the graph. -/
theorem transGen_edge (hnum : ∀ (i : Nat) (b : Block), blocks[i]? = some b → b.num = i)
    {a b : Nat} (hb : b < blocks.length)
    (h : Relation.TransGen (fun a c => c ∈ succsOf blocks a) a b) :
    Relation.TransGen (Lib.Frames.Edge (factSuccs (blocks.map blockFact)).get?) a b := by
  induction h with
  | single hstep => exact .single ((edge_factSuccs hnum).mpr ⟨hstep, hb⟩)
  | tail _ hstep ih =>
      exact (ih (lt_of_mem_succsOf hstep)).tail ((edge_factSuccs hnum).mpr ⟨hstep, hb⟩)

/-- The report finds no loop exactly when no block that can be reached lies on a cycle. -/
theorem backEdges_eq_nil_iff (hentry : 0 < blocks.length)
    (hnum : ∀ (i : Nat) (b : Block), blocks[i]? = some b → b.num = i) :
    backEdges (blocks.map blockFact) = [] ↔ ∀ b, BlockReaches blocks 0 b →
      ¬ Relation.TransGen (fun a c => c ∈ succsOf blocks a) b b := by
  have hsome : ∀ a, ((factSuccs (blocks.map blockFact)).get? a).isSome ↔ a < blocks.length := by
    intro a
    rw [get?_factSuccs blocks hnum]
    simp
  have hwidth : ∀ a us, (factSuccs (blocks.map blockFact)).get? a = some us → us.length ≤ 2 := by
    intro a us hus
    rw [get?_factSuccs blocks hnum] at hus
    obtain ⟨b, -, rfl⟩ := Option.map_eq_some_iff.mp hus
    have hT : b.succT.toList.length ≤ 1 := by cases b.succT <;> simp
    have hF : b.succF.toList.length ≤ 1 := by cases b.succF <;> simp
    simp only [BlockFact.succs, blockFact, List.length_append]
    omega
  have hdone := Lib.Frames.run_eq_nil_iff (List.range blocks.length) 2 (blocks.length * 3 + 1)
    (fun a ha => List.mem_range.mpr ((hsome a).mp ha)) hwidth ((hsome 0).mpr hentry) (by simp)
  have hsub : ∀ a b, Lib.Frames.Edge (factSuccs (blocks.map blockFact)).get? a b →
      b ∈ succsOf blocks a := fun a b hedge => ((edge_factSuccs hnum).mp hedge).1
  unfold backEdges
  rw [List.length_map, hdone]
  constructor
  · intro hacyclic b hreach hcycle
    have hb : b < blocks.length := by
      obtain ⟨c, hstep, -⟩ := Relation.TransGen.head'_iff.mp hcycle
      exact lt_of_mem_succsOf hstep
    apply hacyclic b ?_ (transGen_edge hnum hb hcycle)
    rcases Relation.reflTransGen_iff_eq_or_transGen.mp hreach with rfl | hreach
    · exact .refl
    · exact (transGen_edge hnum hb hreach).to_reflTransGen
  · intro hacyclic b hreach hcycle
    have hreach : BlockReaches blocks 0 b := Relation.ReflTransGen.mono hsub _ _ hreach
    exact hacyclic b hreach (Relation.TransGen.mono hsub _ _ hcycle)

/-- On a graph that was built, the order, the ancestors and the loops of the report are
exact: over the blocks that can be reached, or over those that lead to the blocks that
are asked about. -/
theorem order_ancestors_loops_exact {instrs : List Instr} {progs : List ProgRegion}
    (h : buildCfg instrs progs = .ok blocks) :
    (∀ targets, let live := blockSlice blocks (forwardReachable blocks) targets
      ((∃ order, topoOrder blocks live = .ok order) ↔ LiveAcyclic blocks live) ∧
      ((∃ e, topoOrder blocks live = .error e) ↔ ¬ LiveAcyclic blocks live) ∧
      ∀ order, topoOrder blocks live = .ok order → order.Perm live ∧
        (∀ l b r, order = l ++ b :: r → ∀ p ∈ predsOf blocks b, p ∈ live → p ∈ l) ∧
        ∀ b ∈ live, ∃ s, ancestors blocks order b = some s ∧
          ∀ a, a ∈ s ↔ Relation.TransGen (LiveEdge blocks live) a b) ∧
    (backEdges (blocks.map blockFact) = [] ↔ ∀ b, BlockReaches blocks 0 b →
      ¬ Relation.TransGen (fun a c => c ∈ succsOf blocks a) b b) := by
  have hlinked := wellLinked_buildCfg h
  have hentry : 0 < blocks.length := by
    rw [(linkedTo_buildCfg h).length]
    exact (List.getElem?_eq_some_iff.mp (leaders_zero instrs progs)).1
  refine ⟨?_, backEdges_eq_nil_iff hentry hlinked.num⟩
  intro targets live
  have hkept : Kept blocks live := kept_keptBlocks hentry targets
  have hiff := topoOrder_ok_iff hlinked hkept
  refine ⟨hiff, ?_, ?_⟩
  · rw [← hiff]
    cases topoOrder blocks live with
    | ok order => simp
    | error e => simp
  · intro order horder
    have hwalk := walkOrder_of_topoOrder hkept horder
    have hanc := hwalk.ancestors hlinked hkept
    refine ⟨(List.perm_ext_iff_of_nodup hwalk.nodup hkept.nodup).mpr hwalk.mem, ?_, ?_⟩
    · intro l b r hsplit p hp hlive
      exact hwalk.preds hlinked hkept hsplit hp hlive
    · intro b hb
      obtain ⟨s, hs⟩ := Option.isSome_iff_exists.mp ((hanc.known b).mpr ((hwalk.mem b).mpr hb))
      exact ⟨s, hs, hanc.mem b s hs⟩

end Exact

/-- A jump to itself. -/
def spinInstr : Instr :=
  { opcodeClass := .JMP, opcodeS := .imm, aluCode := .ADD, jmpCode := .JA, opcodeSz := .W
    opcodeMode := .IMM, srcReg := 0, dstReg := 0, offset := -1, imm := 0, wideInstr := false
    nextImm := 0, reloc := none }

/-- A branch over the instruction behind it. -/
def overNext : Instr := { spinInstr with jmpCode := .JEQ, dstReg := 1, offset := 1 }

/-- A jump to itself, and beside it a branch that leads to the exit both ways. -/
def spinBeside : List Instr :=
  [overNext, spinInstr, overNext, { spinInstr with opcodeClass := .ALU64 },
    { spinInstr with jmpCode := .EXIT }]

/-- The blocks that lead to the exit have an order although the graph has a loop. -/
theorem order_ancestors_loops_exact_spin :
    ∃ blocks order, buildCfg spinBeside [] = .ok blocks ∧
      topoOrder blocks [0, 2, 3, 4] = .ok order ∧ order.Perm [0, 2, 3, 4] ∧
      (∀ a, Relation.TransGen (LiveEdge blocks [0, 2, 3, 4]) a 4 ↔ a ∈ [0, 2, 3]) ∧
      ∃ b, BlockReaches blocks 0 b ∧
        Relation.TransGen (fun a c => c ∈ succsOf blocks a) b b := by
  obtain ⟨blocks, hblocks, hslice, ⟨order, horder, hanc⟩, hback⟩ :
      ∃ blocks, buildCfg spinBeside [] = .ok blocks ∧
        blockSlice blocks (forwardReachable blocks) (some [4]) = [0, 2, 3, 4] ∧
        (∃ order, topoOrder blocks [0, 2, 3, 4] = .ok order ∧
          ancestors blocks order 4 = some [2, 0, 3, 2, 0]) ∧
        backEdges (blocks.map blockFact) ≠ [] :=
    ⟨_, rfl, by decide, ⟨_, rfl, by decide⟩, by decide⟩
  obtain ⟨hlive, hloops⟩ := order_ancestors_loops_exact hblocks
  obtain ⟨-, -, hexact⟩ := hlive (some [4])
  rw [hslice] at hexact
  obtain ⟨hperm, -, hancestors⟩ := hexact order horder
  obtain ⟨s, hs, hmem⟩ := hancestors 4 (by decide)
  refine ⟨blocks, order, hblocks, horder, hperm, ?_, ?_⟩
  · intro a
    cases hanc.symm.trans hs
    rw [← hmem]
    simp
    tauto
  · by_contra hnone
    apply hback
    apply hloops.mpr
    intro b hreach hcycle
    exact hnone ⟨b, hreach, hcycle⟩

end Hornet
