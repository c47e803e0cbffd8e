import Hornet.Lib.Dfs
import Mathlib.Algebra.BigOperators.Group.List.Basic
import Mathlib.Logic.Relation

/-!
A depth-first search that keeps the path it is on, each node with the successors that it
has still to look at, and collects the edges that lead back to the path. It finds none
exactly when no node that can be reached lies on a cycle.
-/

namespace Hornet.Lib

variable {α : Type}

section Acyclic

/-- In a list in which the successors of an element come after it, no element lies on a
cycle. -/
theorem not_cycle_of_finished {succ : α → List α} {order : List α}
    (h : ∀ l x r, order = l ++ x :: r → ∀ u ∈ succ x, u ∈ r) {x : α} (hx : x ∈ order) :
    ¬ Relation.TransGen (fun a b => b ∈ succ a) x x := by
  -- the last place of `x`
  obtain ⟨l, r, hsplit, hlast⟩ : ∃ l r, order = l ++ x :: r ∧ x ∉ r := by
    obtain ⟨r, l, hrev, hfirst⟩ := List.eq_append_cons_of_mem (List.mem_reverse.mpr hx)
    refine ⟨l.reverse, r.reverse, ?_, by simpa using hfirst⟩
    rw [← List.reverse_reverse order, hrev]
    simp
  intro hcycle
  have hafter : ∀ y, Relation.TransGen (fun a b => b ∈ succ a) x y → y ∈ r := by
    intro y hy
    induction hy with
    | single hstep => exact h l x r hsplit _ hstep
    | tail _ hstep ih =>
        obtain ⟨l', r', hr⟩ := List.append_of_mem ih
        have hr' := h (l ++ x :: l') _ r' (by rw [hsplit, hr]; simp) _ hstep
        rw [hr]
        exact List.mem_append_right _ (List.mem_cons_of_mem _ hr')
  exact hlast (hafter x hcycle)

end Acyclic

variable [DecidableEq α]

/-- The search between two steps. The top of the stack is the head of the list. -/
structure Frames (α : Type) where
  back : List (α × α)
  done : List α
  onStack : List α
  stack : List (α × List α)

namespace Frames

variable (succs : α → Option (List α))

/-- Looks at the next successor of the node on the top, or leaves the node. -/
def step (s : Frames α) : Option (Frames α) :=
  match s.stack with
  | [] => none
  | (node, []) :: rest =>
      some { s with stack := rest, onStack := s.onStack.filter (· ≠ node), done := node :: s.done }
  | (node, nxt :: it) :: rest =>
      let s := { s with stack := (node, it) :: rest }
      if nxt ∈ s.onStack then some { s with back := s.back ++ [(node, nxt)] }
      else if nxt ∉ s.done then
        match succs nxt with
        | some us => some { s with stack := (nxt, us) :: s.stack, onStack := nxt :: s.onStack }
        | none => some s
      else some s

def run : Nat → Frames α → List (α × α)
  | 0, s => s.back
  | fuel + 1, s =>
      match s.step succs with
      | none => s.back
      | some s => run fuel s

/-- The search from a node. -/
def start (root : α) : Frames α where
  back := []
  done := []
  onStack := [root]
  stack := [(root, (succs root).getD [])]

/-- The successors of a node that are nodes. -/
def nodesAfter (a : α) : List α := ((succs a).getD []).filter fun u => (succs u).isSome

/-- An edge between two nodes. -/
def Edge (a b : α) : Prop := b ∈ nodesAfter succs a

/-- What holds of the search between two steps; the part about what has been seen, as
long as no edge has led back. -/
structure Inv (root : α) (s : Frames α) : Prop where
  onStack : ∀ x, x ∈ s.onStack ↔ ∃ it, (x, it) ∈ s.stack
  nodup : (s.stack.map (·.1)).Nodup
  node : ∀ e ∈ s.stack, (succs e.1).isSome ∧ Relation.ReflTransGen (Edge succs) root e.1
  rest : ∀ e ∈ s.stack, ∀ u ∈ e.2, u ∈ (succs e.1).getD []
  chain : s.stack.Pairwise fun a b => Relation.ReflTransGen (Edge succs) b.1 a.1
  back : ∀ e ∈ s.back, Relation.ReflTransGen (Edge succs) root e.1 ∧ Edge succs e.1 e.2 ∧
    Relation.ReflTransGen (Edge succs) e.2 e.1
  finished : s.back = [] → ∀ l x r, s.done = l ++ x :: r → ∀ u ∈ nodesAfter succs x, u ∈ r
  pending : s.back = [] → ∀ l x it r, s.stack = l ++ (x, it) :: r → ∀ u ∈ nodesAfter succs x,
    u ∈ it ∨ u ∈ s.done ∨ ∃ it', (u, it') ∈ l
  found : root ∈ s.done ∨ ∃ it, (root, it) ∈ s.stack

variable {succs} {root : α} {s s' : Frames α}

omit [DecidableEq α] in
theorem inv_start (hroot : (succs root).isSome) : Inv succs root (start succs root) := by
  refine ⟨?_, ?_, ?_, ?_, ?_, ?_, ?_, ?_, ?_⟩
  · intro x
    simp [start]
  · simp [start]
  · intro e he
    obtain rfl := List.mem_singleton.mp he
    exact ⟨hroot, .refl⟩
  · intro e he u hu
    obtain rfl := List.mem_singleton.mp he
    exact hu
  · exact List.pairwise_singleton _ _
  · intro e he
    cases he
  · intro _ l x r hsplit
    cases l <;> cases hsplit
  · intro _ l x it r hsplit u hu
    cases l with
    | nil =>
        cases hsplit
        exact .inl (List.mem_of_mem_filter hu)
    | cons y l =>
        obtain ⟨-, hnil⟩ := List.cons.inj hsplit
        cases l <;> cases hnil
  · exact .inr ⟨_, List.mem_singleton.mpr rfl⟩

section Steps

variable {node nxt : α} {it us : List α} {rest : List (α × List α)}

/-- The path under a node that is left or looked at again stays as it is. -/
theorem Inv.leave (h : Inv succs root s) (hstack : s.stack = (node, []) :: rest) :
    Inv succs root
      { s with stack := rest, onStack := s.onStack.filter (· ≠ node), done := node :: s.done } := by
  have hnodup : (node :: rest.map (·.1)).Nodup := by simpa [hstack] using h.nodup
  have hbelow : ∀ it, (node, it) ∉ rest := fun it hmem =>
    (List.nodup_cons.mp hnodup).1 (List.mem_map_of_mem hmem)
  have hchain := h.chain
  rw [hstack] at hchain
  refine ⟨?_, (List.nodup_cons.mp hnodup).2, ?_, ?_, (List.pairwise_cons.mp hchain).2, h.back,
    ?_, ?_, ?_⟩
  · intro x
    have hx := h.onStack x
    simp only [hstack, List.mem_cons, Prod.mk.injEq] at hx
    by_cases hne : x = node
    · subst hne
      simp [hbelow]
    · simp [hne, hx]
  · intro e he
    exact h.node e (by simp [hstack, he])
  · intro e he
    exact h.rest e (by simp [hstack, he])
  · intro hback l x r hsplit u hu
    cases l with
    | nil =>
        obtain ⟨rfl, rfl⟩ := List.cons.inj hsplit
        rcases h.pending hback [] node [] rest hstack u hu with hin | hdone | ⟨it', hin⟩
        · cases hin
        · exact hdone
        · cases hin
    | cons y l =>
        obtain ⟨-, hdone⟩ := List.cons.inj hsplit
        exact h.finished hback l x r hdone u hu
  · intro hback l x it r hsplit u hu
    have hwhole : s.stack = (node, []) :: l ++ (x, it) :: r :=
      hstack.trans (congrArg (List.cons (node, [])) hsplit)
    rcases h.pending hback ((node, []) :: l) x it r hwhole u hu with
      hin | hdone | ⟨it', hin⟩
    · exact .inl hin
    · exact .inr (.inl (List.mem_cons_of_mem _ hdone))
    · rcases List.mem_cons.mp hin with heq | hin
      · obtain ⟨rfl, -⟩ := Prod.mk.inj heq
        exact .inr (.inl List.mem_cons_self)
      · exact .inr (.inr ⟨it', hin⟩)
  · rcases h.found with hdone | ⟨it, hin⟩
    · exact .inl (List.mem_cons_of_mem _ hdone)
    · rw [hstack] at hin
      rcases List.mem_cons.mp hin with heq | hin
      · obtain ⟨rfl, -⟩ := Prod.mk.inj heq
        exact .inl List.mem_cons_self
      · exact .inr ⟨it, hin⟩

omit [DecidableEq α] in
/-- Which nodes are on the path does not depend on the successors left at the top. -/
theorem mem_top {x : α} {its it' : List α} (h : (x, its) ∈ (node, it) :: rest) :
    ∃ its', (x, its') ∈ (node, it') :: rest := by
  rcases List.mem_cons.mp h with heq | hin
  · obtain ⟨rfl, -⟩ := Prod.mk.inj heq
    exact ⟨it', List.mem_cons_self⟩
  · exact ⟨its, List.mem_cons_of_mem _ hin⟩

omit [DecidableEq α] in
/-- A successor is looked at; an edge may have been found to lead back. -/
theorem Inv.look (h : Inv succs root s) (hstack : s.stack = (node, nxt :: it) :: rest)
    {back : List (α × α)} (hkeep : ∀ e ∈ s.back, e ∈ back)
    (hback : ∀ e ∈ back, e ∈ s.back ∨ Edge succs e.1 e.2 ∧
      Relation.ReflTransGen (Edge succs) root e.1 ∧ Relation.ReflTransGen (Edge succs) e.2 e.1)
    (hseen : back = [] → nxt ∈ nodesAfter succs node → nxt ∈ s.done) :
    Inv succs root { s with stack := (node, it) :: rest, back := back } := by
  have hempty : back = [] → s.back = [] := by
    intro hnil
    apply List.eq_nil_iff_forall_not_mem.mpr
    intro e he
    have := hkeep e he
    rw [hnil] at this
    cases this
  have hchain := h.chain
  have hnodup := h.nodup
  rw [hstack] at hchain hnodup
  refine ⟨?_, hnodup, ?_, ?_, ?_, ?_, ?_, ?_, ?_⟩
  · intro x
    rw [h.onStack x, hstack]
    constructor
    · rintro ⟨its, hin⟩
      exact mem_top hin
    · rintro ⟨its, hin⟩
      exact mem_top hin
  · intro e he
    rcases List.mem_cons.mp he with rfl | he
    · exact h.node (node, nxt :: it) (by simp [hstack])
    · exact h.node e (by simp [hstack, he])
  · intro e he u hu
    rcases List.mem_cons.mp he with rfl | he
    · exact h.rest (node, nxt :: it) (by simp [hstack]) u (List.mem_cons_of_mem _ hu)
    · exact h.rest e (by simp [hstack, he]) u hu
  · exact List.pairwise_cons.mpr ⟨(List.pairwise_cons.mp hchain).1, (List.pairwise_cons.mp hchain).2⟩
  · intro e he
    rcases hback e he with hold | ⟨hedge, hreach, hcycle⟩
    · exact h.back e hold
    · exact ⟨hreach, hedge, hcycle⟩
  · exact fun hnil => h.finished (hempty hnil)
  · intro hnil l x its r hsplit u hu
    cases l with
    | nil =>
        obtain ⟨heq, rfl⟩ := List.cons.inj hsplit
        obtain ⟨rfl, rfl⟩ := Prod.mk.inj heq
        rcases h.pending (hempty hnil) [] node (nxt :: it) rest hstack u hu with hin | hdone | ⟨_, hin⟩
        · rcases List.mem_cons.mp hin with rfl | hin
          · exact .inr (.inl (hseen hnil hu))
          · exact .inl hin
        · exact .inr (.inl hdone)
        · cases hin
    | cons y l =>
        obtain ⟨rfl, htail⟩ := List.cons.inj hsplit
        rcases h.pending (hempty hnil) ((node, nxt :: it) :: l) x its r (by rw [hstack, htail]; rfl)
          u hu with hin | hdone | ⟨its', hin⟩
        · exact .inl hin
        · exact .inr (.inl hdone)
        · exact .inr (.inr (mem_top hin))
  · rcases h.found with hdone | ⟨its, hin⟩
    · exact .inl hdone
    · rw [hstack] at hin
      exact .inr (mem_top hin)

omit [DecidableEq α] in
/-- What is still to be seen at the nodes of the path when a successor is put on the top. -/
theorem Inv.pending_enter (h : Inv succs root s) (hstack : s.stack = (node, nxt :: it) :: rest)
    (hus : succs nxt = some us) (hback : s.back = []) {l r : List (α × List α)} {x u : α}
    {its : List α} (hsplit : (nxt, us) :: (node, it) :: rest = l ++ (x, its) :: r)
    (hu : u ∈ nodesAfter succs x) : u ∈ its ∨ u ∈ s.done ∨ ∃ its', (u, its') ∈ l := by
  match l, hsplit with
  | [], hsplit =>
      obtain ⟨heq, -⟩ := List.cons.inj hsplit
      obtain ⟨rfl, rfl⟩ := Prod.mk.inj heq
      have hin := List.mem_of_mem_filter hu
      rw [hus] at hin
      exact .inl hin
  | [y], hsplit =>
      obtain ⟨rfl, htail⟩ := List.cons.inj hsplit
      obtain ⟨heq, rfl⟩ := List.cons.inj htail
      obtain ⟨rfl, rfl⟩ := Prod.mk.inj heq
      rcases h.pending hback [] node (nxt :: it) rest hstack u hu with hin | hdone | ⟨_, hin⟩
      · rcases List.mem_cons.mp hin with rfl | hin
        · exact .inr (.inr ⟨us, List.mem_cons_self⟩)
        · exact .inl hin
      · exact .inr (.inl hdone)
      · cases hin
  | y :: z :: l, hsplit =>
      obtain ⟨rfl, htail⟩ := List.cons.inj hsplit
      obtain ⟨rfl, hrest⟩ := List.cons.inj htail
      have hwhole : s.stack = (node, nxt :: it) :: l ++ (x, its) :: r :=
        hstack.trans (congrArg (List.cons (node, nxt :: it)) hrest)
      rcases h.pending hback ((node, nxt :: it) :: l) x its r hwhole u hu with
        hin | hdone | ⟨its', hin⟩
      · exact .inl hin
      · exact .inr (.inl hdone)
      · obtain ⟨its', hin⟩ := mem_top hin
        exact .inr (.inr ⟨its', List.mem_cons_of_mem _ hin⟩)

omit [DecidableEq α] in
/-- A successor that has not been found yet is put on the top. -/
theorem Inv.enter (h : Inv succs root s) (hstack : s.stack = (node, nxt :: it) :: rest)
    (hnew : nxt ∉ s.onStack) (hus : succs nxt = some us) :
    Inv succs root
      { s with stack := (nxt, us) :: (node, it) :: rest, onStack := nxt :: s.onStack } := by
  have hchain := h.chain
  have hnodup := h.nodup
  rw [hstack] at hchain hnodup
  have htop : (node, nxt :: it) ∈ s.stack := by simp [hstack]
  have hedge : Edge succs node nxt :=
    List.mem_filter.mpr ⟨h.rest _ htop nxt List.mem_cons_self, by simp [hus]⟩
  have hfresh : ∀ its, (nxt, its) ∉ s.stack := fun its hin => hnew ((h.onStack nxt).mpr ⟨its, hin⟩)
  refine ⟨?_, ?_, ?_, ?_, ?_, h.back, h.finished, ?_, ?_⟩
  · intro x
    rw [List.mem_cons, h.onStack x, hstack]
    constructor
    · rintro (rfl | ⟨its, hin⟩)
      · exact ⟨us, List.mem_cons_self⟩
      · obtain ⟨its', hin⟩ := mem_top hin
        exact ⟨its', List.mem_cons_of_mem _ hin⟩
    · rintro ⟨its, hin⟩
      rcases List.mem_cons.mp hin with heq | hin
      · exact .inl (Prod.mk.inj heq).1
      · exact .inr (mem_top hin)
  · refine List.nodup_cons.mpr ⟨?_, hnodup⟩
    intro hin
    obtain ⟨⟨x, its⟩, hmem, rfl⟩ := List.mem_map.mp hin
    rcases List.mem_cons.mp hmem with heq | hmem
    · obtain ⟨rfl, -⟩ := Prod.mk.inj heq
      exact hfresh (x :: it) (by simp [hstack])
    · exact hfresh its (by simp [hstack, hmem])
  · intro e he
    rcases List.mem_cons.mp he with rfl | he
    · exact ⟨by simp [hus], (h.node _ htop).2.tail hedge⟩
    · rcases List.mem_cons.mp he with rfl | he
      · exact h.node (node, nxt :: it) htop
      · exact h.node e (by simp [hstack, he])
  · intro e he u hu
    rcases List.mem_cons.mp he with rfl | he
    · simpa [hus] using hu
    · rcases List.mem_cons.mp he with rfl | he
      · exact h.rest _ htop u (List.mem_cons_of_mem _ hu)
      · exact h.rest e (by simp [hstack, he]) u hu
  · obtain ⟨hbelow, hrest⟩ := List.pairwise_cons.mp hchain
    refine List.pairwise_cons.mpr ⟨?_, List.pairwise_cons.mpr ⟨hbelow, hrest⟩⟩
    intro e he
    rcases List.mem_cons.mp he with rfl | he
    · exact .single hedge
    · exact (hbelow e he).tail hedge
  · intro hback l x its r hsplit u hu
    exact h.pending_enter hstack hus hback hsplit hu
  · rcases h.found with hdone | ⟨its, hin⟩
    · exact .inl hdone
    · rw [hstack] at hin
      obtain ⟨its', hin⟩ := mem_top hin
      exact .inr ⟨its', List.mem_cons_of_mem _ hin⟩

/-- One step keeps the invariant. -/
theorem Inv.step (h : Inv succs root s) (hs : s.step succs = some s') : Inv succs root s' := by
  unfold Frames.step at hs
  split at hs
  · cases hs
  · rename_i node rest hstack
    cases hs
    exact h.leave hstack
  · rename_i node nxt it rest hstack
    have htop : (node, nxt :: it) ∈ s.stack := by simp [hstack]
    have hnext : nxt ∈ (succs node).getD [] := h.rest _ htop nxt List.mem_cons_self
    dsimp only at hs
    split at hs
    · rename_i hpath
      cases hs
      obtain ⟨its, hin⟩ := (h.onStack nxt).mp hpath
      have hedge : Edge succs node nxt := List.mem_filter.mpr ⟨hnext, (h.node _ hin).1⟩
      have hcycle : Relation.ReflTransGen (Edge succs) nxt node := by
        have hchain := h.chain
        rw [hstack] at hchain hin
        rcases List.mem_cons.mp hin with heq | hin
        · obtain ⟨rfl, -⟩ := Prod.mk.inj heq
          exact .refl
        · exact (List.pairwise_cons.mp hchain).1 _ hin
      apply h.look hstack
      · exact fun e he => List.mem_append_left _ he
      · intro e he
        rcases List.mem_append.mp he with he | he
        · exact .inl he
        · obtain rfl := List.mem_singleton.mp he
          exact .inr ⟨hedge, (h.node _ htop).2, hcycle⟩
      · intro hnil
        simp at hnil
    · rename_i hpath
      split at hs
      · split at hs
        · rename_i us hus
          cases hs
          exact h.enter hstack hpath hus
        · rename_i hnone
          cases hs
          refine h.look hstack (fun e he => he) (fun e he => .inl he) ?_
          intro _ hnode
          have hsome := (List.mem_filter.mp hnode).2
          rw [hnone] at hsome
          cases hsome
      · rename_i hdone
        cases hs
        exact h.look hstack (fun e he => he) (fun e he => .inl he) fun _ _ => by simpa using hdone

end Steps

section Runs

/-- What a run has still to do: what the frames hold, and a frame for each node that has
not been seen. -/
def weight (univ : List α) (width : Nat) (s : Frames α) : Nat :=
  (s.stack.map fun e => e.2.length + 1).sum + unseen univ (s.onStack ++ s.done) * (width + 1)

/-- One step makes the rest of the run shorter. -/
theorem weight_step {univ : List α} {width : Nat}
    (huniv : ∀ a, (succs a).isSome → a ∈ univ)
    (hwidth : ∀ a us, succs a = some us → us.length ≤ width) (hs : s.step succs = some s') :
    s'.weight univ width < s.weight univ width := by
  unfold Frames.step at hs
  split at hs
  · cases hs
  · rename_i node rest hstack
    cases hs
    have hseen : unseen univ (s.onStack.filter (· ≠ node) ++ node :: s.done) ≤
        unseen univ (s.onStack ++ s.done) := by
      apply unseen_mono
      intro x hx
      by_cases hnode : x = node
      · simp [hnode]
      · simpa [hnode] using hx
    have hmul := Nat.mul_le_mul_right (width + 1) hseen
    simp only [weight, hstack, List.map_cons, List.sum_cons, List.length_nil]
    omega
  · rename_i node nxt it rest hstack
    have hsum : (s.stack.map fun e => e.2.length + 1).sum =
        it.length + 2 + (rest.map fun e => e.2.length + 1).sum := by
      simp [hstack]
    dsimp only at hs
    split at hs
    · cases hs
      simp only [weight, hsum, List.map_cons, List.sum_cons]
      omega
    · rename_i hpath
      split at hs
      · rename_i hdone
        split at hs
        · rename_i us hus
          cases hs
          have hnode : nxt ∈ univ := huniv nxt (by simp [hus])
          have hless : unseen univ (nxt :: (s.onStack ++ s.done)) < _ :=
            unseen_cons hnode (by simp [hpath, hdone])
          have hmul := Nat.mul_le_mul_right (width + 1) hless
          have hlen := hwidth nxt us hus
          simp only [weight, hsum, List.map_cons, List.sum_cons, List.cons_append]
          rw [Nat.succ_mul] at hmul
          omega
        · cases hs
          simp only [weight, hsum, List.map_cons, List.sum_cons]
          omega
      · cases hs
        simp only [weight, hsum, List.map_cons, List.sum_cons]
        omega

/-- A run with enough fuel ends with an empty stack. -/
theorem Inv.run {univ : List α} {width : Nat} (huniv : ∀ a, (succs a).isSome → a ∈ univ)
    (hwidth : ∀ a us, succs a = some us → us.length ≤ width) (fuel : Nat) (s : Frames α)
    (h : Inv succs root s) (hfuel : s.weight univ width < fuel) :
    ∃ s', Inv succs root s' ∧ s'.stack = [] ∧ run succs fuel s = s'.back := by
  induction fuel generalizing s with
  | zero => omega
  | succ fuel ih =>
      simp only [Frames.run]
      split
      · rename_i hend
        refine ⟨s, h, ?_, rfl⟩
        unfold Frames.step at hend
        split at hend
        · assumption
        · cases hend
        · dsimp only at hend
          split at hend
          · cases hend
          · split at hend
            · split at hend <;> cases hend
            · cases hend
      · rename_i s' hs
        have hless := weight_step huniv hwidth hs
        exact ih s' (h.step hs) (by omega)

/-- No edge leads back exactly when no node that can be reached lies on a cycle. -/
theorem run_eq_nil_iff (univ : List α) (width fuel : Nat)
    (huniv : ∀ a, (succs a).isSome → a ∈ univ)
    (hwidth : ∀ a us, succs a = some us → us.length ≤ width) (hroot : (succs root).isSome)
    (hfuel : univ.length * (width + 1) < fuel) :
    run succs fuel (start succs root) = [] ↔
      ∀ x, Relation.ReflTransGen (Edge succs) root x →
        ¬ Relation.TransGen (Edge succs) x x := by
  have hweight : (start succs root).weight univ width < fuel := by
    obtain ⟨us, hus⟩ := Option.isSome_iff_exists.mp hroot
    have hlen := hwidth root us hus
    have hless : unseen univ [root] < unseen univ [] :=
      unseen_cons (huniv root hroot) List.not_mem_nil
    have hall : unseen univ [] = univ.length := by simp [unseen]
    have hmul := Nat.mul_le_mul_right (width + 1) hless
    rw [hall, Nat.succ_mul] at hmul
    simp only [weight, start, hus, Option.getD_some, List.map_cons, List.map_nil, List.sum_cons,
      List.sum_nil, List.append_nil]
    omega
  obtain ⟨s, hinv, hstack, hrun⟩ := Inv.run huniv hwidth fuel _ (inv_start hroot) hweight
  rw [hrun]
  constructor
  · intro hnil x hreach
    have hfinished := hinv.finished hnil
    have hdone : root ∈ s.done := by
      rcases hinv.found with hdone | ⟨it, hin⟩
      · exact hdone
      · rw [hstack] at hin
        cases hin
    have hx : x ∈ s.done := by
      induction hreach with
      | refl => exact hdone
      | tail _ hedge ih =>
          obtain ⟨l, r, hsplit⟩ := List.append_of_mem ih
          rw [hsplit]
          exact List.mem_append_right _ (List.mem_cons_of_mem _ (hfinished l _ r hsplit _ hedge))
    exact not_cycle_of_finished hfinished hx
  · intro hacyclic
    apply List.eq_nil_iff_forall_not_mem.mpr
    intro e he
    obtain ⟨hreach, hedge, hcycle⟩ := hinv.back e he
    exact hacyclic e.1 hreach (.head' hedge hcycle)

end Runs

end Frames

end Hornet.Lib
