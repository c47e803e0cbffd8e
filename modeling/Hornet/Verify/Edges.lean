import Hornet.Verify.Forward

/-!
How a join names its incoming edges. The name is a predecessor and a kind, and
the kind is derived from the fall-through successor alone, so the two edges of a
branch to the next instruction get one name.
-/

namespace Hornet

/-- The part of a block that tracking leaves alone. -/
def Block.graph (b : Block) : Links × List Nat := (b.links, b.preds)

/-- The blocks, tracked or not, of one graph. -/
def SameGraph (cfg blocks : List Block) : Prop := cfg.map Block.graph = blocks.map Block.graph

theorem links_of_sameGraph {cfg blocks : List Block} (h : SameGraph cfg blocks) :
    cfg.map Block.links = blocks.map Block.links := by
  have hfst := congrArg (List.map Prod.fst) h
  simpa [List.map_map, Function.comp_def, Block.graph] using hfst

theorem getElem?_of_sameGraph {cfg blocks : List Block} (h : SameGraph cfg blocks) {i : Nat}
    {b : Block} (hb : blocks[i]? = some b) : ∃ c, cfg[i]? = some c ∧ c.graph = b.graph := by
  have hi := congrArg (·[i]?) h
  simp only [List.getElem?_map, hb, Option.map_some] at hi
  exact Option.map_eq_some_iff.mp hi

theorem SameGraph.symm {cfg blocks : List Block} (h : SameGraph cfg blocks) :
    SameGraph blocks cfg := Eq.symm h

theorem wellLinked_of_sameGraph {cfg blocks : List Block} (h : SameGraph cfg blocks)
    (hcfg : WellLinked cfg) : WellLinked blocks := by
  refine ⟨fun i b hb => ?_, fun i b hb => ?_, fun b hb hbranch => ?_⟩
  · obtain ⟨c, hc, hgraph⟩ := getElem?_of_sameGraph h hb
    have hlinks := congrArg Prod.fst hgraph
    exact (congrArg Links.num hlinks).symm.trans (hcfg.num i c hc)
  · obtain ⟨c, hc, hgraph⟩ := getElem?_of_sameGraph h hb
    have hpreds : c.preds = b.preds := congrArg Prod.snd hgraph
    rw [← hpreds, hcfg.preds i c hc, incoming_of_links (links_of_sameGraph h)]
  · obtain ⟨i, hi⟩ := List.getElem?_of_mem hb
    obtain ⟨c, hc, hgraph⟩ := getElem?_of_sameGraph h hi
    have hlinks := congrArg Prod.fst hgraph
    have hT : c.succT = b.succT := congrArg Links.succT hlinks
    have hF : c.succF = b.succF := congrArg Links.succF hlinks
    have hbr : c.branch = b.branch := congrArg Links.branch hlinks
    rw [← hT, ← hF]
    exact hcfg.single c (List.mem_of_getElem? hc) (hbr.trans hbranch)

section Edges

variable {maps : List MapInfo} (info : Nat → Option (ForwardInfo maps))

/-- The edges as a join into `self` uses them: the name, the fact under which the
entry is merged, and the guard of the name. -/
def Block.mergedEdges (self : Block) (blocks : List Block) :
    List (Edge × Option EdgeFact × Guard) :=
  (self.predEdges blocks).map fun x =>
    (x.1, Block.edgeFact x.2 x.1.2, ForwardContext.edgeGuard info x.1)

/-- The edges from `p` to block `j`, each with the fact and the guard of its own
side of the branch. -/
def Block.edgesInto (p : Block) (j : Nat) : List (Edge × Option EdgeFact × Guard) :=
  (if p.succT = some j then
    [((p.num, .taken), p.condT, ForwardContext.edgeGuard info (p.num, .taken))] else []) ++
  (if p.succF = some j then
    [((p.num, .fall), p.condF, ForwardContext.edgeGuard info (p.num, .fall))] else [])

/-- The edges of the graph into block `j`. -/
def ownEdges (blocks : List Block) (j : Nat) : List (Edge × Option EdgeFact × Guard) :=
  blocks.flatMap fun p => p.edgesInto info j

/-- The name a join into block `j` gives every edge from `p`. -/
def edgeName (p : Block) (j : Nat) : Edge := (p.num, if p.succF = some j then .fall else .taken)

/-- The edges from `p` as a join into block `j` uses them. -/
def Block.namedEdges (p : Block) (j : Nat) : List (Edge × Option EdgeFact × Guard) :=
  (p.links.edgesTo j).map fun _ =>
    (edgeName p j, Block.edgeFact p (edgeName p j).2,
      ForwardContext.edgeGuard info (edgeName p j))

theorem mem_edgesTo {p : Links} {j q : Nat} (h : q ∈ p.edgesTo j) : q = p.num := by
  obtain ⟨s, -, hs⟩ := List.mem_filterMap.mp h
  split at hs
  · exact (Option.some.inj hs).symm
  · cases hs

theorem mergedEdges_eq {blocks : List Block} (h : WellLinked blocks) {j : Nat} {self : Block}
    (hself : blocks[j]? = some self) :
    self.mergedEdges info blocks = blocks.flatMap fun p => p.namedEdges info j := by
  have hnum := h.num j self hself
  unfold Block.mergedEdges Block.predEdges
  rw [h.preds j self hself, incoming, List.filterMap_flatMap, List.map_flatMap]
  apply List.flatMap_congr
  intro p hp
  obtain ⟨i, hi⟩ := List.getElem?_of_mem hp
  have hpi : blocks[p.num]? = some p := by rw [h.num i p hi, hi]
  unfold Block.namedEdges
  rw [List.map_filterMap, ← List.filterMap_eq_map]
  apply List.filterMap_congr
  intro q hq
  obtain rfl := mem_edgesTo hq
  simp [hpi, edgeName, hnum, Block.links]

theorem namedEdges_eq {p : Block} {j : Nat} (h : ¬(p.succT = some j ∧ p.succF = some j)) :
    p.namedEdges info j = p.edgesInto info j := by
  unfold Block.namedEdges Block.edgesInto Links.edgesTo edgeName
  by_cases hT : p.succT = some j <;> by_cases hF : p.succF = some j
  · exact absurd ⟨hT, hF⟩ h
  · cases hs : p.succF <;> simp_all [Block.links, Block.edgeFact]
  · cases hs : p.succT <;> simp_all [Block.links, Block.edgeFact]
  · cases hs : p.succT <;> cases hs' : p.succF <;> simp_all [Block.links]

/-- The taken edge of a branch whose sides meet is not among the named edges. -/
theorem taken_not_mem {blocks : List Block} (h : WellLinked blocks) {p : Block} {j : Nat}
    (hp : p ∈ blocks) (hF : p.succF = some j) (f : Option EdgeFact) (g : Guard) :
    ((p.num, .taken), f, g) ∉ blocks.flatMap fun p => p.namedEdges info j := by
  intro hmem
  obtain ⟨q, hq, hin⟩ := List.mem_flatMap.mp hmem
  obtain ⟨_, -, heq⟩ := List.mem_map.mp hin
  obtain ⟨i, hi⟩ := List.getElem?_of_mem hp
  obtain ⟨k, hk⟩ := List.getElem?_of_mem hq
  simp only [edgeName, Prod.mk.injEq] at heq
  obtain ⟨⟨hnum, hkind⟩, -⟩ := heq
  have hik : k = i := by rw [← h.num k q hk, ← h.num i p hi, hnum]
  subst hik
  obtain rfl := Option.some.inj (hk.symm.trans hi)
  rw [if_pos hF] at hkind
  cases hkind

/-- The names, facts and guards of the edges into a block are those of the edges
of the graph exactly when no branch enters it from both sides. -/
theorem mergedEdges_perm_iff {blocks : List Block} (h : WellLinked blocks) {j : Nat}
    {self : Block} (hself : blocks[j]? = some self) :
    (self.mergedEdges info blocks).Perm (ownEdges info blocks j) ↔
      ¬∃ p ∈ blocks, p.succT = some j ∧ p.succF = some j := by
  rw [mergedEdges_eq info h hself]
  constructor
  · rintro hperm ⟨p, hp, hT, hF⟩
    have hown : ((p.num, EdgeKind.taken), p.condT,
        ForwardContext.edgeGuard info (p.num, .taken)) ∈ ownEdges info blocks j :=
      List.mem_flatMap.mpr ⟨p, hp, by simp [Block.edgesInto, hT]⟩
    exact taken_not_mem info h hp hF _ _ (hperm.mem_iff.mpr hown)
  · intro hnone
    have heq : (blocks.flatMap fun p => p.namedEdges info j) = ownEdges info blocks j :=
      List.flatMap_congr fun p hp => namedEdges_eq info fun hboth => hnone ⟨p, hp, hboth⟩
    rw [heq]

/-- In a graph built from a program, each edge into a block is used under its own
name, with its own fact and guard, exactly when the block before does not end in a
branch that leads to the next instruction from both sides. -/
theorem merged_edges_iff {instrs : List Instr} {progs : List ProgRegion}
    {cfg blocks : List Block} (hcfg : buildCfg instrs progs = .ok cfg)
    (hgraph : SameGraph cfg blocks) {j : Nat} {self : Block} (hself : blocks[j]? = some self) :
    (self.mergedEdges info blocks).Perm (ownEdges info blocks j) ↔
      ¬∃ p ∈ cfg, jumpsToNext instrs progs p.start p.end ∧ p.end + 1 = self.start := by
  have hlinked := linkedTo_buildCfg hcfg
  have hwell := wellLinked_of_sameGraph hgraph (wellLinked_buildCfg hcfg)
  obtain ⟨c, hc, hcgraph⟩ := getElem?_of_sameGraph hgraph hself
  have hstart : c.start = self.start := congrArg (fun g => g.1.start) hcgraph
  have hj : (leaders instrs progs)[j]? = some self.start := by
    rw [hlinked.start j c hc, hstart]
  have hboth : ∀ p ∈ cfg, (p.succT = some j ∧ p.succF = some j) ↔
      (jumpsToNext instrs progs p.start p.end ∧ p.end + 1 = self.start) := by
    intro p hp
    obtain ⟨i, hi⟩ := List.getElem?_of_mem hp
    have hlt := (List.getElem?_eq_some_iff.mp hi).1
    obtain ⟨e, he, hT, hF, -⟩ := hlinked.ended i p (hlinked.length ▸ hlt) hi
    rw [hT, hF, both_succ_iff (nodup_leaders instrs progs) he, hj]
    constructor
    · rintro ⟨hjump, hnext⟩
      exact ⟨hjump, (Option.some.inj hnext).symm⟩
    · rintro ⟨hjump, hnext⟩
      exact ⟨hjump, congrArg some hnext.symm⟩
  rw [mergedEdges_perm_iff info hwell hself, not_iff_not]
  constructor
  · rintro ⟨p, hp, hT, hF⟩
    obtain ⟨i, hi⟩ := List.getElem?_of_mem hp
    obtain ⟨q, hq, hqgraph⟩ := getElem?_of_sameGraph hgraph hi
    have hqT : q.succT = p.succT := congrArg (fun g => g.1.succT) hqgraph
    have hqF : q.succF = p.succF := congrArg (fun g => g.1.succF) hqgraph
    have hqmem := List.mem_of_getElem? hq
    exact ⟨q, hqmem, (hboth q hqmem).mp ⟨hqT.trans hT, hqF.trans hF⟩⟩
  · rintro ⟨q, hqmem, hjump⟩
    obtain ⟨hT, hF⟩ := (hboth q hqmem).mpr hjump
    obtain ⟨i, hi⟩ := List.getElem?_of_mem hqmem
    obtain ⟨p, hp, hpgraph⟩ := getElem?_of_sameGraph hgraph.symm hi
    have hpT : p.succT = q.succT := congrArg (fun g => g.1.succT) hpgraph
    have hpF : p.succF = q.succF := congrArg (fun g => g.1.succF) hpgraph
    exact ⟨p, List.mem_of_getElem? hp, hpT.trans hT, hpF.trans hF⟩

end Edges

/-- `if r1 == 0 goto +off` followed by two exits. -/
def zeroTest (off : Int) : List Instr :=
  [{ opcodeClass := .JMP, opcodeS := .imm, aluCode := .ADD, jmpCode := .JEQ, opcodeSz := .W
     opcodeMode := .IMM, srcReg := 0, dstReg := 1, offset := off, imm := 0, wideInstr := false
     nextImm := 0, reloc := none }] ++
  List.replicate 2
    { opcodeClass := .JMP, opcodeS := .imm, aluCode := .ADD, jmpCode := .EXIT, opcodeSz := .W
      opcodeMode := .IMM, srcReg := 0, dstReg := 0, offset := 0, imm := 0, wideInstr := false
      nextImm := 0, reloc := none }

/-- The blocks of an accepted program; none of one that is refused. -/
def blocksOf (instrs : List Instr) (progs : List ProgRegion) : List Block :=
  match buildCfg instrs progs with
  | .ok blocks => blocks
  | .error _ => []

theorem jumpsToNext_zeroTest {off : Int} (hoff : off ≠ 0) (start «end» : Nat) :
    ¬jumpsToNext (zeroTest off) [] start «end» := by
  rintro ⟨last, hlast, hjump⟩
  have hmem := List.mem_of_getElem? hlast
  simp only [zeroTest, List.cons_append, List.nil_append, List.mem_cons, List.mem_replicate]
    at hmem
  rcases hmem with rfl | ⟨-, rfl⟩
  · rcases hjump with ⟨-, hzero⟩ | ⟨htail, -⟩
    · exact hoff hzero
    · cases htail
  · rcases hjump with ⟨hbr, -⟩ | ⟨htail, -⟩
    · cases hbr
    · cases htail

/-- Before any block is walked. -/
def noInfo : Nat → Option (ForwardInfo []) := fun _ => none

theorem merged_edges_iff_forward_branch :
    ∃ self, (blocksOf (zeroTest 1) [])[2]? = some self ∧
      (self.mergedEdges noInfo (blocksOf (zeroTest 1) [])).Perm
        (ownEdges noInfo (blocksOf (zeroTest 1) []) 2) := by
  have hcfg : buildCfg (zeroTest 1) [] = .ok (blocksOf (zeroTest 1) []) := rfl
  refine ⟨_, rfl, (merged_edges_iff noInfo hcfg rfl rfl).mpr ?_⟩
  rintro ⟨p, -, hjump, -⟩
  exact jumpsToNext_zeroTest (by decide) p.start p.end hjump

/-- `if r1 == 0 goto +0`: the taken edge of block 0 enters block 1 as a second
fall-through edge. -/
theorem merged_edges_mislabel_taken :
    ∃ self, (blocksOf (zeroTest 0) [])[1]? = some self ∧
      (self.mergedEdges noInfo (blocksOf (zeroTest 0) [])).map (·.1) = [(0, .fall), (0, .fall)] ∧
      (ownEdges noInfo (blocksOf (zeroTest 0) []) 1).map (·.1) = [(0, .taken), (0, .fall)] ∧
      ¬(self.mergedEdges noInfo (blocksOf (zeroTest 0) [])).Perm
        (ownEdges noInfo (blocksOf (zeroTest 0) []) 1) := by
  obtain ⟨self, hself⟩ : ∃ self, (blocksOf (zeroTest 0) [])[1]? = some self := ⟨_, rfl⟩
  have hmerged : (self.mergedEdges noInfo (blocksOf (zeroTest 0) [])).map (·.1) =
      [(0, .fall), (0, .fall)] := by
    obtain rfl := Option.some.inj hself
    rfl
  have hown : (ownEdges noInfo (blocksOf (zeroTest 0) []) 1).map (·.1) =
      [(0, .taken), (0, .fall)] := by
    rfl
  refine ⟨self, hself, hmerged, hown, fun hperm => ?_⟩
  have hnames := hperm.map (·.1)
  rw [hmerged, hown] at hnames
  revert hnames
  decide

end Hornet
