import Mathlib.Data.List.Nodup
import Mathlib.Algebra.Ring.Nat
import Mathlib.Data.List.Basic

/-!
Depth-first traversals with an explicit stack. `worklist` collects what can be
reached; `dfsOrder` lists it in topological order, or reports a cycle. Both are
given fuel, and `worklistFuel` and `dfsFuel` are enough for a finite universe.
-/

namespace Hornet.Lib

variable {α : Type} [DecidableEq α]

section Worklist

/-- Pops an element, skips it when it is known or not `ok`, and otherwise pushes
what `next` names. The top of the stack is the head of the list. -/
def worklist (ok : α → Bool) (next : List α → α → List α) : Nat → List α → List α → List α
  | 0, seen, _ => seen
  | _ + 1, seen, [] => seen
  | fuel + 1, seen, b :: stack =>
      if b ∈ seen || !ok b then worklist ok next fuel seen stack
      else worklist ok next fuel (b :: seen) ((next (b :: seen) b).reverse ++ stack)

/-- The elements that a run still has to find. -/
def unseen (univ seen : List α) : Nat := (univ.filter (· ∉ seen)).length

theorem unseen_cons {univ seen : List α} {b : α} (hmem : b ∈ univ) (hb : b ∉ seen) :
    unseen univ (b :: seen) < unseen univ seen := by
  unfold unseen
  have hsub : (univ.filter (· ∉ b :: seen)).Sublist (univ.filter (· ∉ seen)) := by
    apply List.monotone_filter_right
    intro x
    simp
  refine Nat.lt_of_le_of_ne hsub.length_le fun heq => ?_
  have hlists := hsub.eq_of_length heq
  have hin : b ∈ univ.filter (· ∉ seen) := by simp [hmem, hb]
  rw [← hlists] at hin
  simp at hin

theorem unseen_mono {univ seen seen' : List α} (h : ∀ x ∈ seen, x ∈ seen') :
    unseen univ seen' ≤ unseen univ seen := by
  unfold unseen
  apply List.Sublist.length_le
  apply List.monotone_filter_right
  intro x hx
  simp only [decide_eq_true_eq] at hx ⊢
  exact fun hin => hx (h x hin)

def worklistFuel (univ : List α) (width : Nat) : Nat := univ.length * (width + 1) + 2

variable {ok : α → Bool} {next : List α → α → List α}

variable (ok next) in
/-- Everything that was seen or pushed is in the result, and the result is closed
under a relation whose successors `next` names or has seen. -/
theorem worklist_closed (succ : α → List α) (univ : List α) (width : Nat)
    (huniv : ∀ seen, ∀ b ∈ univ, ∀ u ∈ next seen b, ok u = true → u ∈ univ)
    (hwidth : ∀ seen b, (next seen b).length ≤ width)
    (hnext : ∀ seen b, ∀ u ∈ succ b, u ∈ next seen b ∨ u ∈ seen)
    (fuel : Nat) (seen stack : List α) (hstack : ∀ b ∈ stack, ok b = true → b ∈ univ)
    (hfuel : stack.length + unseen univ seen * (width + 1) < fuel)
    (hclosed : ∀ b ∈ seen, ∀ u ∈ succ b, ok u = true → u ∈ seen ∨ u ∈ stack) :
    (∀ b ∈ seen, b ∈ worklist ok next fuel seen stack) ∧
    (∀ b ∈ stack, ok b = true → b ∈ worklist ok next fuel seen stack) ∧
    (∀ b ∈ worklist ok next fuel seen stack, ∀ u ∈ succ b, ok u = true →
      u ∈ worklist ok next fuel seen stack) := by
  induction fuel generalizing seen stack with
  | zero => omega
  | succ fuel ih =>
      cases stack with
      | nil =>
          simp only [worklist]
          exact ⟨fun b hb => hb, by simp, fun b hb u hu hok => by simpa using hclosed b hb u hu hok⟩
      | cons b stack =>
          simp only [worklist]
          split
          · rename_i hskip
            have hskip : b ∈ seen ∨ ok b = false := by simpa using hskip
            obtain ⟨h1, h2, h3⟩ := ih seen stack (fun c hc => hstack c (by simp [hc]))
              (by simp only [List.length_cons] at hfuel; omega) (by
              intro c hc u hu hok
              rcases hclosed c hc u hu hok with h | h
              · exact .inl h
              · rcases List.mem_cons.mp h with rfl | h
                · rcases hskip with hs | hs
                  · exact .inl hs
                  · rw [hok] at hs
                    cases hs
                · exact .inr h)
            refine ⟨h1, fun c hc hok => ?_, h3⟩
            rcases List.mem_cons.mp hc with rfl | hc
            · rcases hskip with hs | hs
              · exact h1 c hs
              · rw [hok] at hs
                cases hs
            · exact h2 c hc hok
          · rename_i hvisit
            have hvisit : b ∉ seen ∧ ok b = true := by simpa using hvisit
            have hb := hstack b (by simp) hvisit.2
            have hless := unseen_cons hb hvisit.1
            have hlen := hwidth (b :: seen) b
            obtain ⟨h1, h2, h3⟩ := ih (b :: seen) ((next (b :: seen) b).reverse ++ stack) (by
              intro c hc hok
              rcases List.mem_append.mp hc with hc | hc
              · exact huniv _ b hb c (by simpa using hc) hok
              · exact hstack c (by simp [hc]) hok) (by
              have hmul : unseen univ (b :: seen) * (width + 1) + (width + 1) ≤
                  unseen univ seen * (width + 1) := by
                rw [← Nat.succ_mul]
                exact Nat.mul_le_mul_right _ hless
              simp only [List.length_append, List.length_reverse, List.length_cons] at hfuel ⊢
              omega) (by
              intro c hc u hu hok
              rcases List.mem_cons.mp hc with rfl | hc
              · rcases hnext (c :: seen) c u hu with h | h
                · exact .inr (by simp [h])
                · exact .inl h
              · rcases hclosed c hc u hu hok with h | h
                · exact .inl (by simp [h])
                · rcases List.mem_cons.mp h with rfl | h
                  · exact .inl (by simp)
                  · exact .inr (by simp [h]))
            refine ⟨fun c hc => h1 c (by simp [hc]), fun c hc hok => ?_, h3⟩
            rcases List.mem_cons.mp hc with rfl | hc
            · exact h1 c (by simp)
            · exact h2 c (by simp [hc]) hok

theorem worklist_nodup (fuel : Nat) (seen stack : List α) (hseen : seen.Nodup) :
    (worklist ok next fuel seen stack).Nodup := by
  induction fuel generalizing seen stack with
  | zero => exact hseen
  | succ fuel ih =>
      cases stack with
      | nil => exact hseen
      | cons b stack =>
          simp only [worklist]
          split
          · exact ih seen stack hseen
          · rename_i hvisit
            have hvisit : b ∉ seen ∧ ok b = true := by simpa using hvisit
            exact ih _ _ (List.nodup_cons.mpr ⟨hvisit.1, hseen⟩)

variable (ok next) in
/-- A property of the seen elements and of the stack that `next` keeps. -/
theorem worklist_forall (P : α → Prop) (hnext : ∀ seen b, P b → ∀ u ∈ next seen b, P u)
    (fuel : Nat) (seen stack : List α) (hseen : ∀ b ∈ seen, P b ∧ ok b = true)
    (hstack : ∀ b ∈ stack, P b) :
    ∀ b ∈ worklist ok next fuel seen stack, P b ∧ ok b = true := by
  induction fuel generalizing seen stack with
  | zero => exact hseen
  | succ fuel ih =>
      cases stack with
      | nil => exact hseen
      | cons b stack =>
          simp only [worklist]
          split
          · exact ih seen stack hseen fun c hc => hstack c (by simp [hc])
          · rename_i hvisit
            have hvisit : b ∉ seen ∧ ok b = true := by simpa using hvisit
            apply ih
            · intro c hc
              rcases List.mem_cons.mp hc with rfl | hc
              · exact ⟨hstack c (by simp), hvisit.2⟩
              · exact hseen c hc
            · intro c hc
              rcases List.mem_append.mp hc with hc | hc
              · exact hnext _ b (hstack b (by simp)) c (by simpa using hc)
              · exact hstack c (by simp [hc])

end Worklist

section Order

inductive Color where
  | white | grey | black
  deriving DecidableEq, Repr

def setColor (color : α → Color) (b : α) (c : Color) : α → Color :=
  fun x => if x = b then c else color x

/-- The entries that entering `b` puts on the stack. -/
def entries (succ : α → List α) (color : α → Color) (b : α) : List (α × Bool) :=
  ((succ b).filter (fun u => color u ≠ .black)).reverse.map (·, false)

/-- Depth-first search from the stack. An entry marked `true` is finished when it
is popped. The finished elements come out in reverse order of finishing. -/
def dfsOrder (succ : α → List α) : Nat → (α → Color) → List α → List (α × Bool) →
    Option (List α)
  | 0, _, _, _ => none
  | _ + 1, _, order, [] => some order
  | fuel + 1, color, order, (b, true) :: stack =>
      dfsOrder succ fuel (setColor color b .black) (b :: order) stack
  | fuel + 1, color, order, (b, false) :: stack =>
      if color b ≠ .white then dfsOrder succ fuel color order stack
      else
        let color := setColor color b .grey
        if (succ b).any (fun u => color u = .grey) then none
        else
          dfsOrder succ fuel color order
            (entries succ color b ++ (b, true) :: stack)

/-- What holds of the search between two steps. -/
structure DfsState (succ : α → List α) (color : α → Color) (order : List α)
    (stack : List (α × Bool)) : Prop where
  nodup : order.Nodup
  black : ∀ x, x ∈ order ↔ color x = .black
  grey : ∀ x, (x, true) ∈ stack ↔ color x = .grey
  /-- An element is never below itself when it has been entered. -/
  entered : stack.Pairwise fun a b => b.2 = true → a.1 ≠ b.1
  finished : ∀ l x r, order = l ++ x :: r → ∀ u ∈ succ x, u ∈ r
  pending : ∀ l x r, stack = l ++ (x, true) :: r → ∀ u ∈ succ x,
    color u = .black ∨ ∃ d, (u, d) ∈ l

section Steps

variable {succ : α → List α} {color : α → Color} {order : List α} {b : α}
  {stack : List (α × Bool)}

omit [DecidableEq α] in
theorem mem_entries {x : α} {d : Bool} :
    (x, d) ∈ entries succ color b ↔ d = false ∧ x ∈ succ b ∧ color x ≠ .black := by
  simp only [entries, List.mem_map, List.mem_reverse, List.mem_filter, decide_eq_true_eq,
    Prod.mk.injEq]
  constructor
  · rintro ⟨u, ⟨hu, hcolor⟩, rfl, rfl⟩
    exact ⟨rfl, hu, hcolor⟩
  · rintro ⟨rfl, hu, hcolor⟩
    exact ⟨x, ⟨hu, hcolor⟩, rfl, rfl⟩

theorem DfsState.finish (h : DfsState succ color order ((b, true) :: stack)) :
    DfsState succ (setColor color b .black) (b :: order) stack := by
  have hgrey : color b = .grey := (h.grey b).mp (by simp)
  have hnot : b ∉ order := by
    rw [h.black b, hgrey]
    simp
  have hentered := List.pairwise_cons.mp h.entered
  have hbelow : (b, true) ∉ stack := fun hb => hentered.1 (b, true) hb rfl rfl
  refine ⟨List.nodup_cons.mpr ⟨hnot, h.nodup⟩, ?_, ?_, hentered.2, ?_, ?_⟩
  · intro x
    by_cases hx : x = b
    · simp [setColor, hx]
    · simp [setColor, hx, h.black x]
  · intro x
    by_cases hx : x = b
    · subst hx
      simp [setColor, hbelow]
    · have hx' := h.grey x
      simp only [List.mem_cons, Prod.mk.injEq, hx, false_and, false_or] at hx'
      simp [setColor, hx, hx']
  · intro l x r hsplit u hu
    cases l with
    | nil =>
        obtain ⟨rfl, rfl⟩ := List.cons.inj hsplit
        rcases h.pending [] b stack rfl u hu with hblack | ⟨d, hd⟩
        · exact (h.black u).mpr hblack
        · cases hd
    | cons y l =>
        obtain ⟨rfl, hrest⟩ := List.cons.inj hsplit
        exact h.finished l x r hrest u hu
  · intro l x r hsplit u hu
    by_cases hub : u = b
    · exact .inl (by simp [setColor, hub])
    · rcases h.pending ((b, true) :: l) x r (by simp [hsplit]) u hu with hblack | ⟨d, hd⟩
      · exact .inl (by simp [setColor, hub, hblack])
      · refine .inr ⟨d, ?_⟩
        simpa [hub] using hd

theorem DfsState.skip (h : DfsState succ color order ((b, false) :: stack))
    (hcolor : color b ≠ .white) : DfsState succ color order stack := by
  have hentered := List.pairwise_cons.mp h.entered
  have hbelow : (b, true) ∉ stack := fun hb => hentered.1 (b, true) hb rfl rfl
  have hblack : color b = .black := by
    cases hb : color b with
    | white => exact absurd hb hcolor
    | black => rfl
    | grey =>
        have hmem := (h.grey b).mpr hb
        simp only [List.mem_cons, Prod.mk.injEq, Bool.true_eq_false, and_false, false_or] at hmem
        exact absurd hmem hbelow
  refine ⟨h.nodup, h.black, ?_, hentered.2, h.finished, ?_⟩
  · intro x
    rw [← h.grey x]
    simp
  · intro l x r hsplit u hu
    rcases h.pending ((b, false) :: l) x r (by simp [hsplit]) u hu with hu' | ⟨d, hd⟩
    · exact .inl hu'
    · by_cases hub : u = b
      · exact .inl (hub ▸ hblack)
      · exact .inr ⟨d, by simpa [hub] using hd⟩

theorem DfsState.enter (h : DfsState succ color order ((b, false) :: stack))
    (hcolor : color b = .white)
    (hcycle : ∀ u ∈ succ b, setColor color b .grey u ≠ .grey) :
    DfsState succ (setColor color b .grey) order
      (entries succ (setColor color b .grey) b ++ (b, true) :: stack) := by
  have hentered := List.pairwise_cons.mp h.entered
  have hgrey : ∀ x, (x, true) ∈ stack ↔ color x = .grey := fun x => by
    rw [← h.grey x]
    simp
  have hbelow : ∀ x, (x, true) ∈ stack → x ≠ b := by
    rintro x hx rfl
    rw [hgrey x, hcolor] at hx
    cases hx
  refine ⟨h.nodup, ?_, ?_, ?_, h.finished, ?_⟩
  · intro x
    rw [h.black x]
    by_cases hx : x = b
    · simp [setColor, hx, hcolor]
    · simp [setColor, hx]
  · intro x
    simp only [List.mem_append, mem_entries, List.mem_cons, Prod.mk.injEq, hgrey]
    by_cases hx : x = b
    · simp [setColor, hx]
    · simp [setColor, hx]
  · apply List.pairwise_append.mpr
    refine ⟨?_, List.pairwise_cons.mpr ⟨?_, hentered.2⟩, ?_⟩
    · apply List.pairwise_of_forall_mem_list
      rintro - - ⟨u, d⟩ hu hd
      exact absurd hd (by simp [(mem_entries.mp hu).1])
    · rintro ⟨x, d⟩ hx hd
      simp only at hd
      subst hd
      exact (hbelow x hx).symm
    · rintro ⟨u, d⟩ hu ⟨x, d'⟩ hx hd
      obtain ⟨-, hsucc, -⟩ := mem_entries.mp hu
      have hnot := hcycle u hsucc
      simp only at hd
      subst hd
      rintro rfl
      rcases List.mem_cons.mp hx with hx | hx
      · simp only [Prod.mk.injEq, and_true] at hx
        simp [setColor, hx] at hnot
      · have hgr := (hgrey u).mp hx
        simp [setColor, hbelow u hx, hgr] at hnot
  · intro l x r hsplit u hu
    have hself : x = b → l = entries succ (setColor color b .grey) b →
        setColor color b .grey u = .black ∨ ∃ d, (u, d) ∈ l := by
      rintro rfl rfl
      by_cases hblack : setColor color x .grey u = .black
      · exact .inl hblack
      · exact .inr ⟨false, mem_entries.mpr ⟨rfl, hu, hblack⟩⟩
    rcases List.append_eq_append_iff.mp hsplit with ⟨l', hl, hrest⟩ | ⟨l', hl, hrest⟩
    · cases l' with
      | nil =>
          obtain ⟨hx, -⟩ := List.cons.inj hrest
          exact hself (congrArg Prod.fst hx).symm (by simpa using hl)
      | cons y l' =>
          obtain ⟨rfl, hstack⟩ := List.cons.inj hrest
          by_cases hub : u = b
          · exact .inr ⟨true, by simp [hl, hub]⟩
          · rcases h.pending ((b, false) :: l') x r (by rw [hstack]; rfl) u hu with hu' | ⟨d, hd⟩
            · exact .inl (by simp [setColor, hub, hu'])
            · refine .inr ⟨d, ?_⟩
              simp only [List.mem_cons, Prod.mk.injEq, hub, false_and, false_or] at hd
              simp [hl, hd]
    · cases l' with
      | nil =>
          obtain ⟨hx, -⟩ := List.cons.inj hrest
          exact hself (congrArg Prod.fst hx) (by simpa using hl.symm)
      | cons y l' =>
          obtain ⟨rfl, -⟩ := List.cons.inj hrest
          have hmem : (x, true) ∈ entries succ (setColor color b .grey) b := by simp [hl]
          exact absurd (mem_entries.mp hmem).1 (by simp)

/-- A finished search lists every element once, and after it all its successors. -/
structure TopoList (succ : α → List α) (order : List α) : Prop where
  nodup : order.Nodup
  finished : ∀ l x r, order = l ++ x :: r → ∀ u ∈ succ x, u ∈ r

/-- A search that ends has listed its stack, in topological order. -/
theorem dfsOrder_topo (fuel : Nat) {result : List α} (h : DfsState succ color order stack)
    (hrun : dfsOrder succ fuel color order stack = some result) :
    TopoList succ result ∧ (∀ x ∈ order, x ∈ result) ∧ ∀ x d, (x, d) ∈ stack → x ∈ result := by
  induction fuel generalizing color order stack with
  | zero => cases hrun
  | succ fuel ih =>
      match stack with
      | [] =>
          obtain rfl := Option.some.inj hrun
          exact ⟨⟨h.nodup, h.finished⟩, fun x hx => hx, by simp⟩
      | (b, true) :: stack =>
          obtain ⟨htopo, horder, hstack⟩ := ih h.finish hrun
          refine ⟨htopo, fun x hx => horder x (by simp [hx]), fun x d hx => ?_⟩
          rcases List.mem_cons.mp hx with hx | hx
          · obtain ⟨rfl, -⟩ := Prod.mk.inj hx
            exact horder x (by simp)
          · exact hstack x d hx
      | (b, false) :: stack =>
          simp only [dfsOrder] at hrun
          split at hrun
          · rename_i hcolor
            have hskip := h.skip hcolor
            obtain ⟨htopo, horder, hstack⟩ := ih hskip hrun
            refine ⟨htopo, horder, fun x d hx => ?_⟩
            rcases List.mem_cons.mp hx with hx | hx
            · obtain ⟨rfl, rfl⟩ := Prod.mk.inj hx
              cases hc : color x with
              | white => exact absurd hc hcolor
              | black => exact horder x ((hskip.black x).mpr hc)
              | grey => exact hstack x true ((hskip.grey x).mpr hc)
            · exact hstack x d hx
          · rename_i hcolor
            have hcolor : color b = .white := by simpa using hcolor
            split at hrun
            · cases hrun
            · rename_i hcycle
              have hcycle : ∀ u ∈ succ b, setColor color b .grey u ≠ .grey := by
                simpa using hcycle
              obtain ⟨htopo, horder, hstack⟩ := ih (h.enter hcolor hcycle) hrun
              refine ⟨htopo, horder, fun x d hx => ?_⟩
              rcases List.mem_cons.mp hx with hx | hx
              · obtain ⟨rfl, -⟩ := Prod.mk.inj hx
                exact hstack x true (by simp)
              · exact hstack x d (by simp [hx])

/-- A property of the listed and pushed elements that the successors have too. -/
theorem dfsOrder_forall (P : α → Prop) (hsucc : ∀ b, P b → ∀ u ∈ succ b, P u) (fuel : Nat)
    {result : List α} (horder : ∀ x ∈ order, P x) (hstack : ∀ x d, (x, d) ∈ stack → P x)
    (hrun : dfsOrder succ fuel color order stack = some result) : ∀ x ∈ result, P x := by
  induction fuel generalizing color order stack with
  | zero => cases hrun
  | succ fuel ih =>
      match stack with
      | [] =>
          obtain rfl := Option.some.inj hrun
          exact horder
      | (b, true) :: stack =>
          have hb := hstack b true (by simp)
          refine ih ?_ (fun x d hx => hstack x d (by simp [hx])) hrun
          intro x hx
          rcases List.mem_cons.mp hx with rfl | hx
          · exact hb
          · exact horder x hx
      | (b, false) :: stack =>
          simp only [dfsOrder] at hrun
          split at hrun
          · exact ih horder (fun x d hx => hstack x d (by simp [hx])) hrun
          · split at hrun
            · cases hrun
            · refine ih horder ?_ hrun
              intro x d hx
              rcases List.mem_append.mp hx with hx | hx
              · exact hsucc b (hstack b false (by simp)) x (mem_entries.mp hx).2.1
              · rcases List.mem_cons.mp hx with hx | hx
                · obtain ⟨rfl, -⟩ := Prod.mk.inj hx
                  exact hstack x false (by simp)
                · exact hstack x d (by simp [hx])

/-- The elements that the search has still to enter. -/
def whites (univ : List α) (color : α → Color) : Nat :=
  (univ.filter (fun x => color x = .white)).length

theorem whites_setColor_lt {univ : List α} (hmem : b ∈ univ) (hb : color b = .white) :
    whites univ (setColor color b .grey) < whites univ color := by
  unfold whites
  have hsub : (univ.filter (fun x => setColor color b .grey x = .white)).Sublist
      (univ.filter (fun x => color x = .white)) := by
    apply List.monotone_filter_right
    intro x
    by_cases hx : x = b <;> simp [setColor, hx]
  refine Nat.lt_of_le_of_ne hsub.length_le fun heq => ?_
  have hlists := hsub.eq_of_length heq
  have hin : b ∈ univ.filter (fun x => color x = .white) := by simp [hmem, hb]
  rw [← hlists] at hin
  simp [setColor] at hin

theorem whites_setColor_le (univ : List α) {c : Color} (hc : c ≠ .white) :
    whites univ (setColor color b c) ≤ whites univ color := by
  unfold whites
  apply List.Sublist.length_le
  apply List.monotone_filter_right
  intro x
  by_cases hx : x = b <;> simp [setColor, hx, hc]

def dfsFuel (univ : List α) (width : Nat) : Nat := univ.length * (width + 2) + 2

/-- With enough fuel, a search of an acyclic graph ends. -/
theorem dfsOrder_ends (rank : α → Nat) (hrank : ∀ b, ∀ u ∈ succ b, rank b < rank u)
    (univ : List α) (width : Nat) (hwidth : ∀ b, (succ b).length ≤ width)
    (huniv : ∀ b ∈ univ, ∀ u ∈ succ b, u ∈ univ)
    (fuel : Nat) (h : DfsState succ color order stack)
    (hstack : ∀ x, (x, false) ∈ stack → x ∈ univ)
    (hascend : stack.Pairwise fun a b => b.2 = true → rank b.1 < rank a.1)
    (hfuel : stack.length + whites univ color * (width + 2) < fuel) :
    ∃ result, dfsOrder succ fuel color order stack = some result := by
  induction fuel generalizing color order stack with
  | zero => omega
  | succ fuel ih =>
      match stack with
      | [] => exact ⟨order, rfl⟩
      | (b, true) :: stack =>
          have hle : whites univ (setColor color b .black) ≤ whites univ color :=
            whites_setColor_le univ (by simp)
          have hmul := Nat.mul_le_mul_right (width + 2) hle
          simp only [List.length_cons] at hfuel
          exact ih h.finish (fun x hx => hstack x (by simp [hx]))
            (List.pairwise_cons.mp hascend).2 (by omega)
      | (b, false) :: stack =>
          simp only [dfsOrder]
          have htail := List.pairwise_cons.mp hascend
          have hb : b ∈ univ := hstack b (by simp)
          simp only [List.length_cons] at hfuel
          split
          · rename_i hcolor
            exact ih (h.skip hcolor) (fun x hx => hstack x (by simp [hx])) htail.2 (by omega)
          · rename_i hcolor
            have hcolor : color b = .white := by simpa using hcolor
            have hcycle : ∀ u ∈ succ b, setColor color b .grey u ≠ .grey := by
              intro u hu hgrey
              have hlt := hrank b u hu
              by_cases hub : u = b
              · rw [hub] at hlt
                omega
              · have hgrey : color u = .grey := by simpa [setColor, hub] using hgrey
                have hmem := (h.grey u).mpr hgrey
                simp only [List.mem_cons, Prod.mk.injEq, Bool.true_eq_false, and_false,
                  false_or] at hmem
                have hgt := htail.1 (u, true) hmem rfl
                simp only at hgt
                omega
            rw [if_neg (by simpa using hcycle)]
            have hless := whites_setColor_lt hb hcolor
            have hmul : whites univ (setColor color b .grey) * (width + 2) + (width + 2) ≤
                whites univ color * (width + 2) := by
              rw [← Nat.succ_mul]
              exact Nat.mul_le_mul_right _ hless
            have hlen : (entries succ (setColor color b .grey) b).length ≤ width := by
              simp only [entries, List.length_map, List.length_reverse]
              exact Nat.le_trans (List.length_filter_le _ _) (hwidth b)
            refine ih (h.enter hcolor hcycle) ?_ ?_ (by
              simp only [List.length_append, List.length_cons]
              omega)
            · intro x hx
              rcases List.mem_append.mp hx with hx | hx
              · exact huniv b hb x (mem_entries.mp hx).2.1
              · exact hstack x (List.mem_cons_of_mem _ (by simpa using hx))
            · apply List.pairwise_append.mpr
              refine ⟨?_, List.pairwise_cons.mpr ⟨htail.1, htail.2⟩, ?_⟩
              · apply List.pairwise_of_forall_mem_list
                rintro - - ⟨u, d⟩ hu hd
                exact absurd hd (by simp [(mem_entries.mp hu).1])
              · rintro ⟨u, d⟩ hu ⟨x, d'⟩ hx hd
                have hlt := hrank b u (mem_entries.mp hu).2.1
                rcases List.mem_cons.mp hx with hx | hx
                · obtain ⟨rfl, -⟩ := Prod.mk.inj hx
                  exact hlt
                · exact Nat.lt_trans (htail.1 (x, d') hx hd) hlt

end Steps

omit [DecidableEq α] in
theorem dfsState_start (succ : α → List α) (root : α) :
    DfsState succ (fun _ => .white) [] [(root, false)] := by
  refine ⟨by simp, by simp, by simp, by simp, by simp, ?_⟩
  intro l x r hsplit
  cases l with
  | nil => simp at hsplit
  | cons y l => simp at hsplit

end Order

end Hornet.Lib
