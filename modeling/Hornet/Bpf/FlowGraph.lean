import Hornet.Bpf.Layout

/-!
A built graph is the control flow of the instructions: its blocks cut them into ranges
that control enters at the first one and leaves at the last one, and its edges are the
steps from there.
-/

namespace Hornet

section Flow

/-- A relocated `lddw` of a map into the register of the map argument. -/
def Instr.loadsMap (ins : Instr) (m : Nat) : Prop :=
  ins.opcodeClass = .LD ∧ ins.opcodeMode = .IMM ∧ ins.dstReg = 2 ∧ ins.reloc = some (.map m)

/-- The map that the last `lddw` of the block loads before the tail call. -/
def TailMap (instrs : List Instr) (start «end» m : Nat) : Prop :=
  ∃ i, start ≤ i ∧ i < «end» ∧ (∃ ins, instrs[i]? = some ins ∧ ins.loadsMap m) ∧
    ∀ k ins m', i < k → k < «end» → instrs[k]? = some ins → ¬ ins.loadsMap m'

/-- The callee of a tail call: the first one that was loaded into the map, or the only one. -/
inductive Callee (instrs : List Instr) (progs : List ProgRegion) (start «end» : Nat)
    (r : ProgRegion) : Prop
  | loaded {m : Nat} (hm : TailMap instrs start «end» m)
      (hr : (progs.filter (!·.isMain)).find? (·.mapId = some m) = some r)
  | only (hm : ∀ m, ¬ TailMap instrs start «end» m) (hr : progs.filter (!·.isMain) = [r])

/-- Control can leave the block for `t` other than by falling into it. -/
inductive Taken (instrs : List Instr) (progs : List ProgRegion) (start «end» t : Nat) : Prop
  | jump {ins : Instr} (hi : instrs[«end»]? = some ins)
      (h : ins.isBranch ∨ (ins.isJump ∧ ins.jmpCode = .JA))
      (ht : («end» : Int) + 1 + ins.jumpOffset = t)
  | call {ins : Instr} {r : ProgRegion} (hi : instrs[«end»]? = some ins) (h : ins.isTailCall)
      (hr : Callee instrs progs start «end» r) (ht : r.start = t)

/-- Control can fall from one instruction into the next. -/
def FallsInto (instrs : List Instr) (i t : Nat) : Prop :=
  (∃ ins, instrs[i]? = some ins ∧ ins.fallsThrough) ∧ t = i + 1 ∧ t < instrs.length

/-- The block behind an edge is the one that starts where control can go, if it can go
anywhere. -/
structure EdgeTo (starts : List Nat) (succ : Option Nat) (P : Nat → Prop) : Prop where
  sound : ∀ s, succ = some s → ∃ t, starts[s]? = some t ∧ P t
  complete : ∀ t, P t → ∃ s, starts[s]? = some t ∧ succ = some s

/-- The edges from one block to another. -/
def Block.edgesTo (b : Block) (j : Nat) : Nat := (b.succT.toList ++ b.succF.toList).count j

/-- The blocks are the control flow of the instructions. -/
structure IsFlowGraph (instrs : List Instr) (progs : List ProgRegion) (blocks : List Block) :
    Prop where
  first : ∃ b, blocks[0]? = some b ∧ b.start = 0
  nonempty : ∀ b ∈ blocks, b.start ≤ b.end
  next : ∀ (j : Nat) (b c : Block), blocks[j]? = some b → blocks[j + 1]? = some c →
    c.start = b.end + 1
  last : ∀ b, blocks.getLast? = some b → b.end + 1 = instrs.length
  inside : ∀ b ∈ blocks, ∀ (i : Nat) (ins : Instr), instrs[i]? = some ins → b.start ≤ i → i < b.end →
    (ins.isJump → ins.isCall) ∧ ¬ ins.isTailCall
  entered : ∀ b ∈ blocks, ∀ i, b.start < i → i ≤ b.end → (∀ r ∈ progs, r.start ≠ i) ∧
    ∀ (k : Nat) (ins : Instr), instrs[k]? = some ins → ins.isBranch ∨ (ins.isJump ∧ ins.jmpCode = .JA) →
      (k : Int) + 1 + ins.jumpOffset ≠ i
  taken : ∀ b ∈ blocks,
    EdgeTo (blocks.map (·.start)) b.succT (Taken instrs progs b.start b.end)
  fall : ∀ b ∈ blocks, EdgeTo (blocks.map (·.start)) b.succF (FallsInto instrs b.end)
  preds : ∀ (j : Nat) (b : Block), blocks[j]? = some b → ∀ p,
    b.preds.count p = ((blocks[p]?).map (·.edgesTo j)).getD 0

end Flow

section TailCalls

variable {instrs : List Instr} {progs : List ProgRegion} {start «end» : Nat}

/-- What the scan for the map finds at one instruction. -/
def mapAt (instrs : List Instr) (i : Nat) : Option Nat :=
  match instrs[i]? with
  | some ins =>
      if ins.opcodeClass = .LD && ins.opcodeMode = .IMM && ins.dstReg = 2 then
        match ins.reloc with
        | some (.map tag) => some tag
        | _ => none
      else none
  | none => none

theorem mapAt_eq_some {i m : Nat} :
    mapAt instrs i = some m ↔ ∃ ins, instrs[i]? = some ins ∧ ins.loadsMap m := by
  unfold mapAt Instr.loadsMap
  cases instrs[i]? with
  | none => simp
  | some ins =>
      simp only [Option.some.injEq, exists_eq_left', Bool.and_eq_true, decide_eq_true_eq]
      split
      · rename_i hload
        obtain ⟨⟨hclass, hmode⟩, hdst⟩ := hload
        split
        · rename_i tag hreloc
          simp [hclass, hmode, hdst, hreloc]
        · rename_i hreloc
          constructor
          · intro h
            cases h
          · rintro ⟨-, -, -, h⟩
            exact absurd h (hreloc m)
      · rename_i hload
        constructor
        · intro h
          cases h
        · rintro ⟨hclass, hmode, hdst, -⟩
          exact absurd ⟨⟨hclass, hmode⟩, hdst⟩ hload

/-- The scan from the back finds the last load. -/
theorem findSome?_range'_reverse {f : Nat → Option Nat} {m : Nat} (start n : Nat) :
    (List.range' start n).reverse.findSome? f = some m ↔
      ∃ i, start ≤ i ∧ i < start + n ∧ f i = some m ∧ ∀ k, i < k → k < start + n → f k = none := by
  induction n with
  | zero =>
      simp only [List.range'_zero, List.reverse_nil, List.findSome?_nil, reduceCtorEq, false_iff]
      rintro ⟨i, hi, hlt, -⟩
      omega
  | succ n ih =>
      rw [List.range'_concat, List.reverse_append, List.reverse_singleton, List.singleton_append,
        List.findSome?_cons, Nat.one_mul]
      cases hlast : f (start + n) with
      | some v =>
          constructor
          · intro h
            cases h
            exact ⟨start + n, by omega, by omega, hlast, fun k hk hlt => by omega⟩
          · rintro ⟨i, hi, hlt, hm, hafter⟩
            rcases Nat.lt_or_ge i (start + n) with hless | hge
            · have hnone := hafter (start + n) hless (by omega)
              rw [hlast] at hnone
              cases hnone
            · obtain rfl : i = start + n := by omega
              exact hlast.symm.trans hm
      | none =>
          refine ih.trans ?_
          constructor
          · rintro ⟨i, hi, hlt, hm, hafter⟩
            refine ⟨i, hi, by omega, hm, fun k hk hltk => ?_⟩
            rcases Nat.lt_or_ge k (start + n) with hless | hge
            · exact hafter k hk hless
            · obtain rfl : k = start + n := by omega
              exact hlast
          · rintro ⟨i, hi, hlt, hm, hafter⟩
            refine ⟨i, hi, ?_, hm, fun k hk hltk => hafter k hk (by omega)⟩
            rcases Nat.lt_or_ge i (start + n) with hless | hge
            · exact hless
            · obtain rfl : i = start + n := by omega
              rw [hlast] at hm
              cases hm

theorem tailMap_eq_some {m : Nat} :
    tailMap instrs start «end» = some m ↔ TailMap instrs start «end» m := by
  have hscan : tailMap instrs start «end» =
      (List.range' start («end» - start)).reverse.findSome? (mapAt instrs) := rfl
  rw [hscan, findSome?_range'_reverse]
  constructor
  · rintro ⟨i, hi, hlt, hm, hafter⟩
    refine ⟨i, hi, by omega, mapAt_eq_some.mp hm, fun k ins m' hk hltk hins hload => ?_⟩
    have hnone := hafter k hk (by omega)
    rw [mapAt_eq_some.mpr ⟨ins, hins, hload⟩] at hnone
    cases hnone
  · rintro ⟨i, hi, hlt, hm, hafter⟩
    refine ⟨i, hi, by omega, mapAt_eq_some.mpr hm, fun k hk hltk => ?_⟩
    cases hat : mapAt instrs k with
    | none => rfl
    | some m' =>
        obtain ⟨ins, hins, hload⟩ := mapAt_eq_some.mp hat
        exact absurd hload (hafter k ins m' hk (by omega) hins)

/-- The callee is found exactly when there is one. -/
theorem tailTarget_eq_ok {r : ProgRegion} :
    tailTarget instrs start «end» progs = .ok r ↔ Callee instrs progs start «end» r := by
  constructor
  · intro h
    unfold tailTarget at h
    dsimp only at h
    split at h
    · cases h
    · split at h
      · rename_i m hm
        split at h
        · rename_i found hfound
          cases h
          exact .loaded (tailMap_eq_some.mp hm) hfound
        · cases h
      · rename_i hm
        have hnone : ∀ m, ¬ TailMap instrs start «end» m := by
          intro m htail
          rw [tailMap_eq_some.mpr htail] at hm
          cases hm
        split at h
        · rename_i hone
          cases h
          exact .only hnone hone
        · cases h
  · intro h
    unfold tailTarget
    dsimp only
    cases h with
    | loaded hm hr =>
        have hmem := List.mem_of_find?_eq_some hr
        rw [tailMap_eq_some.mpr hm, if_neg (by simpa using List.ne_nil_of_mem hmem)]
        simp only [hr]
        rfl
    | only hm hr =>
        have hnone : tailMap instrs start «end» = none := by
          cases htail : tailMap instrs start «end» with
          | none => rfl
          | some m => exact absurd (tailMap_eq_some.mp htail) (hm m)
        rw [hnone, hr]
        rfl

end TailCalls

section Edges

variable {instrs : List Instr} {progs : List ProgRegion} {starts : List Nat}
  {num start «end» : Nat} {e : BlockEnd}

theorem edgeTo_none {P : Nat → Prop} (h : ∀ t, ¬ P t) : EdgeTo starts none P where
  sound s hs := by cases hs
  complete t ht := absurd ht (h t)

theorem edgeTo_some {P : Nat → Prop} {target : Int} {s : Nat}
    (hs : blockStartMap starts target = some s) (h : ∀ t : Nat, P t ↔ target = t) :
    EdgeTo starts (some s) P := by
  obtain ⟨t, ht, htarget⟩ := blockStartMap_eq_some hs
  constructor
  · intro s' hs'
    cases hs'
    exact ⟨t, ht, (h t).mpr htarget⟩
  · intro t' ht'
    have heq := (h t').mp ht'
    obtain rfl : t = t' := by omega
    exact ⟨s, ht, rfl⟩

theorem fallsInto_some {e' : BlockEnd} (h : fallsInto starts «end» e = .ok e') :
    ∃ s, blockStartMap starts («end» + 1) = some s ∧ e' = { e with succF := some s } := by
  unfold fallsInto at h
  split at h
  · rename_i s hs
    cases h
    exact ⟨s, hs, rfl⟩
  · cases h

/-- The fall-through edge leads to the next instruction. -/
theorem edgeTo_next {last : Instr} {s : Nat} (hstarts : ∀ t ∈ starts, t < instrs.length)
    (hlast : instrs[«end»]? = some last) (hfalls : last.fallsThrough)
    (hs : blockStartMap starts («end» + 1) = some s) :
    EdgeTo starts (some s) (FallsInto instrs «end») := by
  apply edgeTo_some hs
  obtain ⟨t, ht, htarget⟩ := blockStartMap_eq_some hs
  have hlt := hstarts t (List.mem_of_getElem? ht)
  intro t'
  constructor
  · rintro ⟨-, rfl, -⟩
    omega
  · intro htarget'
    exact ⟨⟨last, hlast, hfalls⟩, by omega, by omega⟩

/-- An instruction that control does not leave by a jump has no taken edge. -/
theorem not_taken {last : Instr} {t : Nat} (hlast : instrs[«end»]? = some last)
    (hbranch : ¬ last.isBranch) (hja : ¬ (last.isJump ∧ last.jmpCode = .JA))
    (htail : ¬ last.isTailCall) : ¬ Taken instrs progs start «end» t := by
  intro h
  cases h with
  | jump hi hkind ht =>
      obtain rfl := Option.some_inj.mp (hlast.symm.trans hi)
      rcases hkind with hkind | hkind
      · exact hbranch hkind
      · exact hja hkind
  | call hi hkind hr ht =>
      obtain rfl := Option.some_inj.mp (hlast.symm.trans hi)
      exact htail hkind

/-- An instruction that jumps is taken to the target of the jump. -/
theorem taken_jump {last : Instr} {t : Nat} (hlast : instrs[«end»]? = some last)
    (hkind : last.isBranch ∨ (last.isJump ∧ last.jmpCode = .JA)) :
    Taken instrs progs start «end» t ↔ («end» : Int) + 1 + last.jumpOffset = t := by
  constructor
  · intro h
    cases h with
    | jump hi _ ht =>
        obtain rfl := Option.some_inj.mp (hlast.symm.trans hi)
        exact ht
    | call hi htail hr ht =>
        obtain rfl := Option.some_inj.mp (hlast.symm.trans hi)
        simp only [Instr.isTailCall, Instr.isCall, Bool.and_eq_true, decide_eq_true_eq] at htail
        simp [Instr.isBranch, htail.1.1.2] at hkind
  · exact fun ht => .jump hlast hkind ht

/-- A tail call is taken to its callee. -/
theorem taken_call {last : Instr} {r : ProgRegion} {t : Nat} (hlast : instrs[«end»]? = some last)
    (htail : last.isTailCall) (hr : tailTarget instrs start «end» progs = .ok r) :
    Taken instrs progs start «end» t ↔ (r.start : Int) = t := by
  have hcode : last.jmpCode = .CALL := by
    simp only [Instr.isTailCall, Instr.isCall, Bool.and_eq_true, decide_eq_true_eq] at htail
    exact htail.1.1.2
  constructor
  · intro h
    cases h with
    | jump hi hkind ht =>
        obtain rfl := Option.some_inj.mp (hlast.symm.trans hi)
        simp [Instr.isBranch, hcode] at hkind
    | call hi _ hr' ht =>
        have hsame := Except.ok.inj ((tailTarget_eq_ok.mpr hr').symm.trans hr)
        rw [← ht, hsame]
  · intro ht
    exact .call hlast htail (tailTarget_eq_ok.mp hr) (by omega)

/-- Control does not go on behind an instruction that does not fall through. -/
theorem edgeTo_stop {last : Instr} (hlast : instrs[«end»]? = some last)
    (hfalls : last.fallsThrough = false) : EdgeTo starts none (FallsInto instrs «end») := by
  apply edgeTo_none
  rintro t ⟨⟨ins, hins, hins'⟩, -⟩
  obtain rfl := Option.some_inj.mp (hlast.symm.trans hins)
  rw [hfalls] at hins'
  cases hins'

/-- The edges of a block that ends in a conditional jump. -/
theorem branchEnd_edgeTo {last : Instr} (hstarts : ∀ t ∈ starts, t < instrs.length)
    (hlast : instrs[«end»]? = some last) (hjump : last.isJump) (hJA : last.jmpCode ≠ .JA)
    (hCALL : last.jmpCode ≠ .CALL) (hEXIT : last.jmpCode ≠ .EXIT)
    (h : branchEnd starts num «end» last = .ok e) :
    EdgeTo starts e.succT (Taken instrs progs start «end») ∧
      EdgeTo starts e.succF (FallsInto instrs «end») := by
  have hbranch : last.isBranch := by simp [Instr.isBranch, hjump, hJA, hCALL, hEXIT]
  have hoffset : last.jumpOffset = last.offset := by simp [Instr.jumpOffset, hJA]
  unfold branchEnd at h
  split at h
  · cases h
  · rename_i s hs
    obtain ⟨e', he', h⟩ := Lib.bind_eq_ok.mp h
    split at h
    · cases h
    · cases h
      obtain ⟨f, hf, rfl⟩ := fallsInto_some he'
      rw [← hoffset] at hs
      refine ⟨edgeTo_some hs fun t => taken_jump hlast (.inl hbranch), ?_⟩
      exact edgeTo_next hstarts hlast (by simp [Instr.fallsThrough, hJA, hEXIT]) hf

/-- The edges of a block that ends in a jump, a call or an exit. -/
theorem jumpEnd_edgeTo {last : Instr} (hstarts : ∀ t ∈ starts, t < instrs.length)
    (hlast : instrs[«end»]? = some last) (hjump : last.isJump)
    (h : jumpEnd instrs progs starts num start «end» last = .ok e) :
    EdgeTo starts e.succT (Taken instrs progs start «end») ∧
      EdgeTo starts e.succF (FallsInto instrs «end») := by
  unfold jumpEnd at h
  split at h
  · rename_i hcode
    split at h
    · rename_i s hs
      cases h
      refine ⟨edgeTo_some hs fun t => taken_jump hlast (.inr ⟨hjump, hcode⟩), ?_⟩
      exact edgeTo_stop hlast (by simp [Instr.fallsThrough, hjump, hcode])
    · cases h
  · rename_i hcode
    have hfalls : last.fallsThrough := by simp [Instr.fallsThrough, hcode]
    split at h
    · rename_i htail
      obtain ⟨r, hr, h⟩ := Lib.bind_eq_ok.mp h
      split at h
      · rename_i s hs
        obtain ⟨f, hf, rfl⟩ := fallsInto_some h
        refine ⟨edgeTo_some hs fun t => taken_call hlast htail hr, ?_⟩
        exact edgeTo_next hstarts hlast hfalls hf
      · cases h
    · rename_i htail
      obtain ⟨f, hf, rfl⟩ := fallsInto_some h
      refine ⟨edgeTo_none fun t => not_taken hlast ?_ ?_ htail, ?_⟩
      · simp [Instr.isBranch, hcode]
      · simp [hcode]
      · exact edgeTo_next hstarts hlast hfalls hf
  · rename_i hcode
    cases h
    refine ⟨edgeTo_none fun t => not_taken hlast ?_ ?_ ?_, ?_⟩
    · simp [Instr.isBranch, hcode]
    · simp [hcode]
    · simp [Instr.isTailCall, Instr.isCall, hcode]
    · exact edgeTo_stop hlast (by simp [Instr.fallsThrough, hjump, hcode])
  · rename_i hJA hCALL hEXIT
    exact branchEnd_edgeTo hstarts hlast hjump hJA hCALL hEXIT h

/-- The edges of a block lead where control can go from its last instruction. -/
theorem blockEnd_edgeTo (hnodup : starts.Nodup) (hstarts : ∀ t ∈ starts, t < instrs.length)
    (hnext : «end» + 1 < instrs.length → «end» + 1 ∈ starts)
    (h : blockEnd instrs progs starts num start «end» = .ok e) :
    EdgeTo starts e.succT (Taken instrs progs start «end») ∧
      EdgeTo starts e.succF (FallsInto instrs «end») := by
  unfold blockEnd at h
  split at h
  · cases h
  · rename_i last hlast
    split at h
    · rename_i hjump
      exact jumpEnd_edgeTo hstarts hlast hjump h
    · rename_i hjump
      cases h
      refine ⟨edgeTo_none fun t => not_taken hlast ?_ ?_ ?_, ?_⟩
      · simp [Instr.isBranch, hjump]
      · simp [hjump]
      · simp [Instr.isTailCall, Instr.isCall, hjump]
      · cases hs : blockStartMap starts («end» + 1) with
        | some s => exact edgeTo_next hstarts hlast (by simp [Instr.fallsThrough, hjump]) hs
        | none =>
            -- only behind the last instruction no block starts
            apply edgeTo_none
            rintro t ⟨-, rfl, hlt⟩
            obtain ⟨k, hk⟩ := List.mem_iff_getElem?.mp (hnext hlt)
            rw [show ((«end» : Int) + 1) = ((«end» + 1 : Nat) : Int) by omega,
              blockStartMap_getElem? hnodup hk] at hs
            cases hs

end Edges

section Preds

/-- The predecessor list of a block names each edge into it once. -/
theorem count_incoming (blocks : List Block)
    (hnum : ∀ (i : Nat) (b : Block), blocks[i]? = some b → b.num = i) (j p : Nat) :
    (incoming blocks j).count p = ((blocks[p]?).map (·.edgesTo j)).getD 0 := by
  induction blocks using List.reverseRecOn with
  | nil => simp [incoming]
  | append_singleton blocks b ih =>
      have hb : b.num = blocks.length := hnum blocks.length b (by simp)
      have hone : (b.links.edgesTo j).count p = if p = blocks.length then b.edgesTo j else 0 := by
        unfold Links.edgesTo Block.edgesTo
        simp only [Block.links, hb]
        generalize b.succT.toList ++ b.succF.toList = succs
        induction succs with
        | nil => simp
        | cons s succs ih =>
            simp only [List.filterMap_cons]
            split
            · rename_i hne
              have hs : s ≠ j := by
                rintro rfl
                simp at hne
              rw [ih, List.count_cons_of_ne hs]
            · rename_i v hv
              split at hv
              · rename_i hs
                subst hs
                cases hv
                rw [List.count_cons, ih, List.count_cons_self]
                by_cases hp : p = blocks.length
                · simp [hp]
                · simp [hp, Ne.symm hp]
              · cases hv
      have hsplit : incoming (blocks ++ [b]) j = incoming blocks j ++ b.links.edgesTo j := by
        simp [incoming]
      rw [hsplit, List.count_append, hone, ih]
      · split
        · rename_i heq
          simp [heq]
        · rename_i hne
          rcases Nat.lt_or_gt_of_ne hne with hlt | hgt
          · rw [List.getElem?_append_left hlt, Nat.add_zero]
          · rw [List.getElem?_eq_none (by omega), List.getElem?_eq_none (by simp; omega)]
            rfl
      · intro i c hc
        apply hnum i c
        rw [List.getElem?_append_left (List.getElem?_eq_some_iff.mp hc).1]
        exact hc

end Preds

section Built

variable {instrs : List Instr} {progs : List ProgRegion} {blocks : List Block}

theorem map_start_buildCfg (h : buildCfg instrs progs = .ok blocks) :
    blocks.map (·.start) = leaders instrs progs := by
  apply List.ext_getElem?
  intro j
  rw [List.getElem?_map]
  cases hb : blocks[j]? with
  | some b => exact (sited_buildCfg h hb).start.symm
  | none =>
      have hlen := List.getElem?_eq_none_iff.mp hb
      rw [(linkedTo_buildCfg h).length] at hlen
      exact (List.getElem?_eq_none hlen).symm

/-- Inside a block, behind its first instruction, there is no leader. -/
theorem not_leader_inside (h : buildCfg instrs progs = .ok blocks) {j i : Nat} {b : Block}
    (hb : blocks[j]? = some b) (hstart : b.start < i) (hend : i ≤ b.end) :
    i ∉ leaders instrs progs := by
  have hsited := sited_buildCfg h hb
  apply not_leader_between hsited.start hstart
  intro t ht
  have hat := hsited.end
  rw [ht] at hat
  simp only at hat
  omega

/-- The target of a jump, if it is an instruction, is a leader. -/
theorem leader_of_jump {k i : Nat} {ins : Instr} (hk : instrs[k]? = some ins)
    (hkind : ins.isBranch ∨ (ins.isJump ∧ ins.jmpCode = .JA))
    (ht : (k : Int) + 1 + ins.jumpOffset = i) (hi : i < instrs.length) :
    i ∈ leaders instrs progs := by
  refine (mem_leaders instrs progs).mpr (.inr (.inr ⟨k, ins, hk, ?_⟩))
  have hjump : ins.isJump ∧ ins.jmpCode ≠ .EXIT ∧ ins.jmpCode ≠ .CALL := by
    rcases hkind with hbranch | ⟨hjump, hcode⟩
    · simp only [Instr.isBranch, Bool.and_eq_true, Bool.not_eq_true', Bool.or_eq_false_iff,
        decide_eq_false_iff_not] at hbranch
      exact ⟨hbranch.1, hbranch.2.2, hbranch.2.1.2⟩
    · simp [hjump, hcode]
  obtain ⟨hjump, hexit, hcall⟩ := hjump
  have hrange : 0 ≤ (k : Int) + 1 + ins.jumpOffset ∧
      (k : Int) + 1 + ins.jumpOffset < instrs.length := by omega
  simp [instrLeaders, hjump, Instr.isExit, Instr.isCall, hexit, hcall, ht, hi]

/-- Behind an instruction that is not the last one of its block, there is no jump. -/
theorem inside_block {i : Nat} {ins : Instr} (hi : instrs[i]? = some ins)
    (hlt : i + 1 < instrs.length) (hnot : i + 1 ∉ leaders instrs progs) :
    (ins.isJump → ins.isCall) ∧ ¬ ins.isTailCall := by
  have hnone : i + 1 ∉ instrLeaders instrs.length i ins := fun hmem =>
    hnot ((mem_leaders instrs progs).mpr (.inr (.inr ⟨i, ins, hi, hmem⟩)))
  unfold instrLeaders at hnone
  simp only [hlt, if_true] at hnone
  by_cases hjump : ins.isJump
  · rw [if_neg (by simp [hjump])] at hnone
    split at hnone
    · simp at hnone
    · split at hnone
      · rename_i hcall
        split at hnone
        · simp at hnone
        · rename_i htail
          exact ⟨fun _ => hcall, htail⟩
      · simp at hnone
  · refine ⟨fun h => absurd h hjump, ?_⟩
    simp [Instr.isTailCall, Instr.isCall, hjump]

/-- How the way a block ends shows in its edges: an exit has none, a branch has both. -/
structure Block.Ended (b : Block) : Prop where
  exit : b.exit = true → b.succT = none ∧ b.succF = none
  branch : b.branch = true → b.succT.isSome ∧ b.succF.isSome

theorem ended_endWith {starts : List Nat} {num start «end» : Nat} {e : BlockEnd}
    (h : blockEnd instrs progs starts num start «end» = .ok e) (b : Block) :
    (b.endWith e).Ended := by
  suffices (e.exit = true → e.succT = none ∧ e.succF = none) ∧
      (e.branch = true → e.succT.isSome ∧ e.succF.isSome) from ⟨this.1, this.2⟩
  unfold blockEnd at h
  split at h
  · cases h
  · split at h
    · unfold jumpEnd at h
      split at h
      · split at h
        · cases h
          simp
        · cases h
      · split at h
        · obtain ⟨r, hr, h⟩ := Lib.bind_eq_ok.mp h
          split at h
          · obtain ⟨f, -, rfl⟩ := fallsInto_some h
            simp
          · cases h
        · obtain ⟨f, -, rfl⟩ := fallsInto_some h
          simp
      · cases h
        simp
      · unfold branchEnd at h
        split at h
        · cases h
        · obtain ⟨e', he', h⟩ := Lib.bind_eq_ok.mp h
          split at h
          · cases h
          · cases h
            obtain ⟨f, -, rfl⟩ := fallsInto_some he'
            simp
    · cases h
      simp

theorem forall_modify {P : Block → Prop} {f : Block → Block} {bs : List Block} (i : Nat)
    (hf : ∀ b, P b → P (f b)) (h : ∀ b ∈ bs, P b) : ∀ b ∈ bs.modify i f, P b := by
  intro b hb
  obtain ⟨j, hj⟩ := List.mem_iff_getElem?.mp hb
  rw [List.getElem?_modify] at hj
  obtain ⟨b', hb', rfl⟩ := Option.map_eq_some_iff.mp hj
  have hold := h b' (List.mem_of_getElem? hb')
  split
  · exact hf b' hold
  · exact hold

/-- The edges of every block are those of its kind. -/
theorem ended_buildCfg (h : buildCfg instrs progs = .ok blocks) : ∀ b ∈ blocks, b.Ended := by
  obtain ⟨linked, hlink, hmark⟩ := Lib.bind_eq_ok.mp h
  have hcut : ∀ b ∈ cutBlocks instrs (leaders instrs progs), b.Ended := by
    intro b hb
    obtain ⟨x, -, rfl⟩ := List.mem_map.mp hb
    exact ⟨by simp, by simp⟩
  have hkeep : ∀ b : Block, b.Ended → ∀ preds, ({ b with preds := preds } : Block).Ended :=
    fun b hb preds => ⟨hb.exit, hb.branch⟩
  have hlinked := Lib.foldlM_ok (fun _ (bs : List Block) => ∀ b ∈ bs, b.Ended) hcut ?_ hlink
  · refine Lib.foldlM_ok (fun _ (bs : List Block) => ∀ b ∈ bs, b.Ended) hlinked ?_ hmark
    intro _ region bs bs' hbs _ hstep
    unfold markEntry at hstep
    split at hstep
    · cases hstep
    · cases hstep
      split
      · exact hbs
      · exact forall_modify _ (fun b hb => ⟨hb.exit, hb.branch⟩) hbs
  · intro _ i bs bs' hbs _ hstep
    unfold linkBlock at hstep
    split at hstep
    · cases hstep
      exact hbs
    · obtain ⟨e, he, hstep⟩ := Lib.bind_eq_ok.mp hstep
      cases hstep
      refine List.foldlRecOn _ _ (motive := fun bs : List Block => ∀ b ∈ bs, b.Ended) ?_ ?_
      · exact forall_modify _ (fun b _ => ended_endWith he b) hbs
      · exact fun bs hbs s _ => forall_modify _ (fun b hb => hkeep b hb _) hbs

theorem length_buildCfg_pos (h : buildCfg instrs progs = .ok blocks) : 0 < blocks.length := by
  rw [(linkedTo_buildCfg h).length]
  exact (List.getElem?_eq_some_iff.mp (leaders_zero instrs progs)).1

/-- The next block starts behind the end of a block. -/
theorem start_eq_end_succ (h : buildCfg instrs progs = .ok blocks) {j t : Nat} {b : Block}
    (hb : blocks[j]? = some b) (ht : (leaders instrs progs)[j + 1]? = some t) : t = b.end + 1 := by
  have hsited := sited_buildCfg h hb
  have hat := hsited.end
  have hpos := leaders_lt hsited.start ht (by omega)
  rw [ht] at hat
  simp only at hat
  omega

/-- Behind the last block there is no instruction. -/
theorem end_last (h : buildCfg instrs progs = .ok blocks) {j : Nat} {b : Block}
    (hb : blocks[j]? = some b) (hnone : (leaders instrs progs)[j + 1]? = none)
    (hinstrs : 0 < instrs.length) : b.end + 1 = instrs.length := by
  have hat := (sited_buildCfg h hb).end
  rw [hnone] at hat
  simp only at hat
  omega

/-- Nothing enters a block behind its first instruction. -/
theorem entered_buildCfg (h : buildCfg instrs progs = .ok blocks) {j i : Nat} {b : Block}
    (hb : blocks[j]? = some b) (hstart : b.start < i) (hend : i ≤ b.end) :
    (∀ r ∈ progs, r.start ≠ i) ∧
      ∀ (k : Nat) (ins : Instr), instrs[k]? = some ins →
        ins.isBranch ∨ (ins.isJump ∧ ins.jmpCode = .JA) → (k : Int) + 1 + ins.jumpOffset ≠ i := by
  have hnot := not_leader_inside h hb hstart hend
  have hlast := end_lt_of_buildCfg h hb
  constructor
  · intro r hr heq
    exact hnot ((mem_leaders instrs progs).mpr (.inr (.inl ⟨r, hr, heq⟩)))
  · intro k ins hk hkind ht
    exact hnot (leader_of_jump hk hkind ht (by omega))

/-- The edges of the blocks, where all regions start in the program. -/
theorem edges_buildCfg (h : buildCfg instrs progs = .ok blocks) (hinstrs : 0 < instrs.length)
    (hprogs : ∀ r ∈ progs, r.start < instrs.length) {b : Block} (hb : b ∈ blocks) :
    EdgeTo (blocks.map (·.start)) b.succT (Taken instrs progs b.start b.end) ∧
      EdgeTo (blocks.map (·.start)) b.succF (FallsInto instrs b.end) := by
  obtain ⟨j, hj⟩ := List.getElem?_of_mem hb
  obtain ⟨e, he, hT, hF, -⟩ := blockEnd_of_buildCfg h hj
  rw [map_start_buildCfg h, hT, hF]
  refine blockEnd_edgeTo (nodup_leaders instrs progs)
    (fun t ht => leader_lt_length hinstrs hprogs ht) (fun hlt => ?_) he
  -- behind a block there is a leader or the end of the program
  cases hnext : (leaders instrs progs)[j + 1]? with
  | none =>
      have hlast := end_last h hj hnext hinstrs
      omega
  | some t =>
      rw [← start_eq_end_succ h hj hnext]
      exact List.mem_of_getElem? hnext

/-- A graph with an empty block is not the control flow: with regions that start in the
program, and only then, no block is empty and the graph is exact. -/
theorem isFlowGraph_iff (h : buildCfg instrs progs = .ok blocks) :
    IsFlowGraph instrs progs blocks ↔ ∀ r ∈ progs, r.start < instrs.length := by
  have hlinked := wellLinked_buildCfg h
  constructor
  · intro hflow r hr
    have hmem : r.start ∈ leaders instrs progs :=
      (mem_leaders instrs progs).mpr (.inr (.inl ⟨r, hr, rfl⟩))
    rw [← map_start_buildCfg h] at hmem
    obtain ⟨b, hb, hstart⟩ := List.mem_map.mp hmem
    obtain ⟨j, hj⟩ := List.getElem?_of_mem hb
    have hend := end_lt_of_buildCfg h hj
    have hle := hflow.nonempty b hb
    omega
  · intro hprogs
    have hlength := length_buildCfg_pos h
    have hinstrs : 0 < instrs.length := by
      have hlast := end_lt_of_buildCfg h (List.getElem?_eq_getElem hlength)
      omega
    refine ⟨?_, ?_, ?_, ?_, ?_, ?_, fun b hb => (edges_buildCfg h hinstrs hprogs hb).1,
      fun b hb => (edges_buildCfg h hinstrs hprogs hb).2, ?_⟩
    · refine ⟨blocks[0], List.getElem?_eq_getElem hlength, ?_⟩
      have hsited := sited_buildCfg h (List.getElem?_eq_getElem hlength)
      exact Option.some_inj.mp (hsited.start.symm.trans (leaders_zero instrs progs))
    · intro b hb
      obtain ⟨j, hj⟩ := List.getElem?_of_mem hb
      exact start_le_end h hprogs hj
    · intro j b c hb hc
      exact start_eq_end_succ h hb (sited_buildCfg h hc).start
    · intro b hb
      rw [List.getLast?_eq_getElem?] at hb
      refine end_last h hb (List.getElem?_eq_none ?_) hinstrs
      rw [(linkedTo_buildCfg h).length]
      omega
    · intro b hb i ins hi hstart hend
      obtain ⟨j, hj⟩ := List.getElem?_of_mem hb
      have hlast := end_lt_of_buildCfg h hj
      exact inside_block hi (by omega) (not_leader_inside h hj (by omega) (by omega))
    · intro b hb i hstart hend
      obtain ⟨j, hj⟩ := List.getElem?_of_mem hb
      exact entered_buildCfg h hj hstart hend
    · intro j b hb p
      rw [hlinked.preds j b hb]
      exact count_incoming blocks hlinked.num j p

end Built

def stopInstr : Instr :=
  { opcodeClass := .JMP, opcodeS := .imm, aluCode := .ADD, jmpCode := .EXIT, opcodeSz := .W
    opcodeMode := .IMM, srcReg := 0, dstReg := 0, offset := 0, imm := 0, wideInstr := false
    nextImm := 0, reloc := none }

/-- `if r0 == 0 goto +1; exit; exit` -/
def twoExits : List Instr := [{ stopInstr with jmpCode := .JEQ, offset := 1 }, stopInstr, stopInstr]

theorem isFlowGraph_iff_twoExits :
    ∃ blocks, buildCfg twoExits [⟨"main", 0, 2, none, none⟩] = .ok blocks ∧
      IsFlowGraph twoExits [⟨"main", 0, 2, none, none⟩] blocks := by
  obtain ⟨blocks, h⟩ : ∃ blocks, buildCfg twoExits [⟨"main", 0, 2, none, none⟩] = .ok blocks :=
    ⟨_, rfl⟩
  exact ⟨blocks, h, (isFlowGraph_iff h).mpr (by decide)⟩

/-- A program that starts right behind the last instruction is accepted, with an empty block. -/
theorem empty_block_built :
    ∃ blocks, buildCfg [stopInstr] [⟨"main", 0, 0, none, none⟩, ⟨"callee", 1, 1, some 0, some 0⟩] =
        .ok blocks ∧
      ¬ IsFlowGraph [stopInstr] [⟨"main", 0, 0, none, none⟩, ⟨"callee", 1, 1, some 0, some 0⟩]
        blocks := by
  obtain ⟨blocks, h, b, hb, hempty⟩ : ∃ blocks, buildCfg [stopInstr]
      [⟨"main", 0, 0, none, none⟩, ⟨"callee", 1, 1, some 0, some 0⟩] = .ok blocks ∧
      ∃ b, b ∈ blocks ∧ ¬ b.start ≤ b.end := by
    refine ⟨_, rfl, ?_⟩
    decide
  exact ⟨blocks, h, fun hflow => hempty (hflow.nonempty b hb)⟩

end Hornet
