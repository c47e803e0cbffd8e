import Hornet.Arith.Adjust
import Hornet.Report.Facts
import Hornet.Verify.Checker
import Hornet.Verify.Constants
import Hornet.Verify.Witness

/-!
The return codes that a report lists, and the condition that is written for them. The codes
are the constants of the joins that a return value is nested in. Whenever an arm is left for
the value to come from, it is one of them; a join that has lost all its arms is a free
variable.
-/

namespace Hornet

open Smt

/-- When two values are the same object. Values that are the same object are equal. -/
structure ObjectIdentity where
  same : Expr → Expr → Bool
  sound : ∀ a b, same a b = true → a = b

section Leaves

variable (I : ObjectIdentity)

mutual

/-- The constants of a nest of joins, but for objects that were seen before, and the
objects that have been seen by then. -/
def leaves (seen : List Expr) (e : Expr) : Option (List Int × List Expr) :=
  if seen.any (I.same · e) then some ([], seen)
  else
    match e with
    | .joinValue _ _ values _ => leavesOf (e :: seen) values
    | .num n _ _ => some ([n], e :: seen)
    | _ => none
termination_by structural e

def leavesOf (seen : List Expr) : List (Option Expr) → Option (List Int × List Expr)
  | [] => some ([], seen)
  | none :: _ => none
  | some e :: values => do
      let (ns, seen) ← leaves seen e
      let (ms, seen) ← leavesOf seen values
      pure (ns ++ ms, seen)
termination_by structural values => values

end

/-- The members of a set in ascending order. -/
def sorted (ns : List Int) : List Int := ns.dedup.insertionSort (· ≤ ·)

def retCodesOf (expr : Option Expr) : Option (List Int) :=
  match expr.bind (leaves I []) with
  | none => none
  | some (ns, _) => if ns = [] then none else some (sorted ns)

structure ExitFact where
  block : Nat
  retCodes : Option (List Int)
  deriving DecidableEq, Repr

def exitFacts (blocks : List Block) : List ExitFact :=
  (blocks.filter (·.kind = .exit)).map fun b => ⟨b.num, retCodesOf I b.retExpr⟩

end Leaves

/-- The return codes of a program: none when some exit has none. -/
def retCodes (exits : List ExitFact) : Option (List Int) :=
  (exits.mapM ExitFact.retCodes).map fun codes => sorted codes.flatten

/-- The condition that holds of the observed returns. -/
def exitConditions : Option (List Int) → Option ExitCondition
  | none | some [] => none
  | some [c] => some ⟨"observed_returns", .all, .leaf (.ret .eq c)⟩
  | some codes => some ⟨"observed_returns", .all, .or (codes.map fun c => .leaf (.ret .eq c))⟩

section Collected

variable {I : ObjectIdentity}

/-- A value all of whose leaves are listed constants that fit. -/
inductive Expr.Constants (codes : List Int) : Expr → Prop
  | num {n : Int} {size : Nat} (hn : n ∈ codes) (h : numFits n size) (idx : Int) :
      Constants codes (.num n size idx)
  | join (blockIdx : Nat) (regNum : Int) {values : List (Option Expr)} (edges : List (List Edge))
      (hsome : none ∉ values) (h : ∀ u, some u ∈ values → Constants codes u) :
      Constants codes (.joinValue blockIdx regNum values edges)

/-- An object that the search has dealt with: a constant that is listed, or a join whose
values have all been seen. -/
inductive Collected (codes : List Int) (seen : List Expr) : Expr → Prop
  | num {n : Int} (hn : n ∈ codes) (size : Nat) (idx : Int) : Collected codes seen (.num n size idx)
  | join (blockIdx : Nat) (regNum : Int) {values : List (Option Expr)} (edges : List (List Edge))
      (hsome : none ∉ values) (h : ∀ u, some u ∈ values → u ∈ seen) :
      Collected codes seen (.joinValue blockIdx regNum values edges)

theorem Collected.mono {codes codes' : List Int} {seen seen' : List Expr} {e : Expr}
    (h : Collected codes seen e) (hcodes : ∀ n ∈ codes, n ∈ codes')
    (hseen : ∀ x ∈ seen, x ∈ seen') : Collected codes' seen' e := by
  cases h with
  | num hn size idx => exact .num (hcodes _ hn) size idx
  | join b r es hsome h => exact .join b r es hsome fun u hu => hseen u (h u hu)

/-- What a search adds to the objects that were seen before is dealt with. -/
structure Extends (seen : List Expr) (out : List Int × List Expr) : Prop where
  kept : ∀ x ∈ seen, x ∈ out.2
  added : ∀ x ∈ out.2, x ∈ seen ∨ Collected out.1 out.2 x

mutual

theorem leaves_extends (seen : List Expr) (e : Expr) {out : List Int × List Expr}
    (h : leaves I seen e = some out) : Extends seen out ∧ e ∈ out.2 := by
  unfold leaves at h
  split at h
  · rename_i hseen
    cases h
    obtain ⟨x, hx, hsame⟩ := List.any_eq_true.mp hseen
    exact ⟨⟨fun x hx => hx, fun x hx => .inl hx⟩, I.sound x e hsame ▸ hx⟩
  · split at h
    · rename_i b r values es _
      obtain ⟨hext, hsome, hall⟩ := leavesOf_extends _ values h
      have hself : Expr.joinValue b r values es ∈ out.2 := hext.kept _ (by simp)
      refine ⟨⟨fun x hx => hext.kept x (by simp [hx]), fun x hx => ?_⟩, hself⟩
      rcases hext.added x hx with hx | hx
      · rcases List.mem_cons.mp hx with rfl | hx
        · exact .inr (.join b r es hsome hall)
        · exact .inl hx
      · exact .inr hx
    · rename_i n size idx _
      cases h
      refine ⟨⟨fun x hx => by simp [hx], fun x hx => ?_⟩, by simp⟩
      rcases List.mem_cons.mp hx with rfl | hx
      · exact .inr (.num (by simp) size idx)
      · exact .inl hx
    · cases h

theorem leavesOf_extends (seen : List Expr) (values : List (Option Expr))
    {out : List Int × List Expr} (h : leavesOf I seen values = some out) :
    Extends seen out ∧ none ∉ values ∧ ∀ u, some u ∈ values → u ∈ out.2 := by
  match values with
  | [] =>
      unfold leavesOf at h
      cases h
      exact ⟨⟨fun x hx => hx, fun x hx => .inl hx⟩, by simp, by simp⟩
  | none :: _ =>
      unfold leavesOf at h
      cases h
  | some e :: values =>
      unfold leavesOf at h
      obtain ⟨⟨ns, seen₁⟩, hfirst, h⟩ := Option.bind_eq_some_iff.mp h
      obtain ⟨⟨ms, seen₂⟩, hrest, h⟩ := Option.bind_eq_some_iff.mp h
      cases h
      obtain ⟨hext₁, hself⟩ := leaves_extends seen e hfirst
      obtain ⟨hext₂, hsome, hall⟩ := leavesOf_extends seen₁ values hrest
      refine ⟨⟨fun x hx => hext₂.kept x (hext₁.kept x hx), fun x hx => ?_⟩, by simpa using hsome, ?_⟩
      · rcases hext₂.added x hx with hx | hx
        · exact (hext₁.added x hx).imp id fun hc => hc.mono (by simp +contextual) hext₂.kept
        · exact .inr (hx.mono (by simp +contextual) fun x hx => hx)
      · intro u hu
        rcases List.mem_cons.mp hu with heq | hu
        · obtain rfl := Option.some.inj heq
          exact hext₂.kept u hself
        · exact hall u hu

end

/-- A search that starts with nothing seen lists all constants of the value, shared joins
included. -/
theorem constants_of_leaves {e : Expr} (hfits : e.Fits) {codes : List Int} {seen : List Expr}
    (h : leaves I [] e = some (codes, seen)) : e.Constants codes := by
  obtain ⟨hext, hself⟩ := leaves_extends [] e h
  have hall : ∀ x ∈ seen, Collected codes seen x := by
    intro x hx
    rcases hext.added x hx with hx | hx
    · cases hx
    · exact hx
  clear h hext
  induction hfits with
  | num hfits idx =>
      cases hall _ hself with
      | num hn => exact .num hn hfits idx
  | join b r es _ ih =>
      cases hall _ hself with
      | join _ _ _ hsome hseen => exact .join b r es hsome fun u hu => ih u hu (hseen u hu)
  | other hnum hjoin =>
      cases hall _ hself with
      | num => cases hnum
      | join => cases hjoin

end Collected

section Arms

variable {α β : Type} (guardOf : Edge → Guard) (m : ZModel)

/-- The arms of a join that are left: their guards are not known to be false. -/
def keptArms (values : List (Option Expr)) (edges : List (List Edge)) :
    List (Guard × Option Expr) :=
  ((edges.map fun es => Guard.orAll (es.map guardOf)).zip values).filter (·.1 ≠ .ff)

/-- The arm that a model selects: the first one whose guard holds, the last one unguarded. -/
def chosen : List (Guard × α) → Option α
  | [] => none
  | [x] => some x.2
  | x :: xs => if x.1.eval m then some x.2 else chosen xs

/-- The guards lead from a value, arm by arm, to a join that has no arm left. -/
inductive Expr.Unbound : Expr → Nat → Int → Prop
  | here {b : Nat} {r : Int} {values : List (Option Expr)} {edges : List (List Edge)}
      (h : keptArms guardOf values edges = []) : Unbound (.joinValue b r values edges) b r
  | arm {b b' : Nat} {r r' : Int} {values : List (Option Expr)} {edges : List (List Edge)} {u : Expr}
      (h : chosen m (keptArms guardOf values edges) = some (some u)) (hu : Unbound u b' r') :
      Unbound (.joinValue b r values edges) b' r'

variable {guardOf m}

theorem chosen_isSome (x : Guard × α) (xs : List (Guard × α)) :
    ∃ y, chosen m (x :: xs) = some y := by
  induction xs generalizing x with
  | nil => exact ⟨x.2, rfl⟩
  | cons y ys ih =>
      rw [chosen]
      split
      · exact ⟨x.2, rfl⟩
      · exact ih y
      · exact nofun

theorem mem_of_chosen {arms : List (Guard × α)} {a : α} (h : chosen m arms = some a) :
    ∃ g, (g, a) ∈ arms := by
  induction arms with
  | nil => cases h
  | cons x xs ih =>
      cases xs with
      | nil =>
          cases h
          exact ⟨x.1, by simp⟩
      | cons y ys =>
          rw [chosen] at h
          split at h
          · cases h
            exact ⟨x.1, by simp⟩
          · obtain ⟨g, hg⟩ := ih h
            exact ⟨g, by simp [hg]⟩
          · exact nofun

/-- Arms with the same guards: the model selects the same one of both. -/
theorem chosen_forall₂ {P : α → β → Prop} {xs : List (Guard × α)} {ys : List (Guard × β)}
    (h : List.Forall₂ (fun x y => x.1 = y.1 ∧ P x.2 y.2) xs ys) {a : α}
    (ha : chosen m xs = some a) : ∃ b, chosen m ys = some b ∧ P a b := by
  induction h with
  | nil => cases ha
  | @cons x y xs ys hxy hrest ih =>
      obtain ⟨hguard, hval⟩ := hxy
      cases hrest with
      | nil =>
          cases ha
          exact ⟨y.2, rfl, hval⟩
      | cons hxy' hrest' =>
          rw [chosen, hguard] at ha
          · rw [chosen]
            split at ha
            · rename_i htrue
              cases ha
              exact ⟨y.2, by rw [if_pos htrue], hval⟩
            · rename_i hfalse
              rw [if_neg hfalse]
              exact ih ha
            · exact nofun
          · exact nofun

/-- A chain has the value of the arm that is selected. -/
theorem eval_ifChain_chosen {s : Srt} (x : Guard × ZTerm s) (xs : List (Guard × ZTerm s))
    {t : ZTerm s} (h : chosen m (x :: xs) = some t) : (ifChain x xs).eval m = t.eval m := by
  induction xs generalizing x with
  | nil =>
      cases h
      rfl
  | cons y ys ih =>
      rw [chosen] at h
      · rw [ifChain, Guard.eval_ite]
        split at h
        · rename_i htrue
          cases h
          rw [if_pos htrue]
        · rename_i hfalse
          rw [if_neg hfalse]
          exact ih y h
      · exact List.cons_ne_nil y ys

theorem Expr.Unbound.unique {e : Expr} {b b' : Nat} {r r' : Int} (h : e.Unbound guardOf m b r)
    (h' : e.Unbound guardOf m b' r') : b = b' ∧ r = r' := by
  induction h with
  | here hnone =>
      cases h' with
      | here => exact ⟨rfl, rfl⟩
      | arm hchosen =>
          rw [hnone] at hchosen
          cases hchosen
  | arm hchosen _ ih =>
      cases h' with
      | here hnone =>
          rw [hnone] at hchosen
          cases hchosen
      | arm hchosen' hu' =>
          rw [hchosen] at hchosen'
          cases hchosen'
          exact ih hu'

end Arms

section Lowered

variable {maps : List MapInfo} {R : Reads maps} {m : ZModel} {codes : List Int}

/-- The value that a term of the nest has: the variable of a join that has no arm left, or
one of the codes. -/
inductive Returned (R : Reads maps) (m : ZModel) (codes : List Int) (e : Expr) (n : Nat) : Prop
  | unbound {b : Nat} {r : Int} (h : e.Unbound R.guardOf m b r)
      (hn : n = (m (.bv 64) (.phi b r)).toNat) : Returned R m codes e n
  | listed {c : Int} (hc : c ∈ codes) (h : ∀ b r, ¬e.Unbound R.guardOf m b r)
      (hn : (n : Int) = c % 2 ^ 64) : Returned R m codes e n

theorem Returned.mod {e : Expr} {n : Nat} (h : Returned R m codes e n) :
    Returned R m codes e (n % 2 ^ 64) := by
  cases h with
  | unbound hun hn =>
      refine .unbound hun ?_
      rw [hn]
      exact Nat.mod_eq_of_lt (BitVec.isLt _)
  | listed hc hbound hn => exact .listed hc hbound (by omega)

/-- A join returns what the arm that is selected returns. -/
theorem Returned.arm {u : Expr} {n : Nat} (h : Returned R m codes u n) {b : Nat} {r : Int}
    {values : List (Option Expr)} {edges : List (List Edge)}
    (hchosen : chosen m (keptArms R.guardOf values edges) = some (some u)) :
    Returned R m codes (.joinValue b r values edges) n := by
  cases h with
  | unbound hun hn => exact .unbound (.arm hchosen hun) hn
  | listed hc hbound hn =>
      refine .listed hc (fun b' r' hun => ?_) hn
      cases hun with
      | here hnone =>
          rw [hnone] at hchosen
          cases hchosen
      | arm hchosen' hun =>
          rw [hchosen] at hchosen'
          cases hchosen'
          exact hbound b' r' hun

/-- The term of an arm is that of its value, at 64 bits. -/
def ArmTerm (R : Reads maps) (t : ZTerm (.bv 64)) (v : Option Expr) : Prop :=
  ∃ u tu, v = some u ∧ exprToZ3 (some R) none R.base u = .ok tu ∧ t = resize tu 64

/-- The arms of a join whose values have terms. -/
theorem phiArms_kept {values : List (Option Expr)} (hsome : none ∉ values)
    (h : ∀ u, some u ∈ values → ∃ t, exprToZ3 (some R) none R.base u = .ok t)
    (edges : List (List Edge)) :
    ∃ arms, phiArms R values edges = .ok arms ∧
      List.Forall₂ (fun x y => x.1 = y.1 ∧ ArmTerm R x.2 y.2) arms
        (keptArms R.guardOf values edges) := by
  induction values generalizing edges with
  | nil =>
      refine ⟨[], ?_, ?_⟩
      · unfold phiArms
        rfl
      · simp [keptArms]
  | cons v values ih =>
      cases edges with
      | nil =>
          refine ⟨[], ?_, ?_⟩
          · unfold phiArms
            rfl
          · simp [keptArms]
      | cons es edges =>
          obtain ⟨arms, harms, hall⟩ := ih (fun hin => hsome (by simp [hin]))
            (fun u hu => h u (by simp [hu])) edges
          have hcons : keptArms R.guardOf (v :: values) (es :: edges) =
              if Guard.orAll (es.map R.guardOf) = .ff then keptArms R.guardOf values edges
              else (Guard.orAll (es.map R.guardOf), v) :: keptArms R.guardOf values edges := by
            unfold keptArms
            rw [List.map_cons, List.zip_cons_cons, List.filter_cons]
            split <;> simp_all
          rw [phiArms, hcons]
          split
          · exact ⟨arms, harms, hall⟩
          · cases v with
            | none => simp at hsome
            | some u =>
                obtain ⟨t, ht⟩ := h u (by simp)
                refine ⟨_, by rw [someToZ3_ok ht, harms]; rfl, .cons ?_ hall⟩
                exact ⟨rfl, u, t, rfl, ht, rfl⟩

/-- Every value with listed constants only has a term, with one of the values it can
return. -/
theorem Expr.Constants.returned {e : Expr} (h : e.Constants codes) :
    ∀ (blk : Option Nat) (st : Z3State maps),
      ∃ t, exprToZ3 (some R) blk st e = .ok t ∧ Returned R m codes e (t.toNat m) := by
  induction h with
  | @num n size hn hfits idx =>
      intro blk st
      obtain ⟨t, ht, -, hval⟩ := evalAt_num (m := m) hfits idx
      exact ⟨t, ht, .listed hn nofun hval.symm⟩
  | @join b r values edges hsome _ ih =>
      intro blk st
      obtain ⟨arms, harms, hall⟩ := phiArms_kept hsome
        (fun u hu => (ih u hu none R.base).imp fun _ ht => ht.1) edges
      cases arms with
      | nil =>
          have hnone : keptArms R.guardOf values edges = [] := by
            cases hkept : keptArms R.guardOf values edges with
            | nil => rfl
            | cons => rw [hkept] at hall; cases hall
          refine ⟨_, by rw [exprToZ3, harms]; rfl, .unbound (.here hnone) rfl⟩
      | cons x xs =>
          refine ⟨_, by rw [exprToZ3, harms]; rfl, ?_⟩
          obtain ⟨t, ht⟩ := chosen_isSome (m := m) x xs
          obtain ⟨v, hv, u, tu, rfl, htu, rfl⟩ := chosen_forall₂ hall ht
          obtain ⟨g, hmem⟩ := mem_of_chosen hv
          have hu : some u ∈ values := (List.of_mem_zip (List.mem_of_mem_filter hmem)).2
          obtain ⟨tu', htu', hret⟩ := ih u hu none R.base
          obtain rfl := Except.ok.inj (htu.symm.trans htu')
          have hval : Bv.toNat m (⟨64, ifChain x xs⟩ : ZBv) = tu.toNat m % 2 ^ 64 := by
            rw [Bv.toNat_mk, eval_ifChain_chosen x xs ht, toNat_resize]
          rw [hval]
          exact (hret.mod).arm hv

/-- The value is a code exactly when the variables it may be left with are. -/
theorem Returned.listed_iff {e : Expr} {v : BitVec 64} {ns : List Int}
    (h : Returned R m ns e v.toNat) (hns : ∀ n ∈ ns, n ∈ codes) :
    (∃ c ∈ codes, v = BitVec.ofInt 64 c) ↔ ∀ b r, e.Unbound R.guardOf m b r →
      ∃ c ∈ codes, m (.bv 64) (.phi b r) = BitVec.ofInt 64 c := by
  cases h with
  | @unbound b r hun hn =>
      have hv : v = m (.bv 64) (.phi b r) := BitVec.eq_of_toNat_eq hn
      constructor
      · intro hlisted b' r' hun'
        obtain ⟨rfl, rfl⟩ := hun.unique hun'
        rw [← hv]
        exact hlisted
      · intro hall
        rw [hv]
        exact hall b r hun
  | @listed c hc hbound hn =>
      have hv : v = BitVec.ofInt 64 c := by
        apply BitVec.eq_of_toNat_eq
        rw [BitVec.toNat_ofInt]
        omega
      exact iff_of_true ⟨c, hns c hc, hv⟩ fun b r hun => absurd hun (hbound b r)

end Lowered

section Conditions

variable {maps : List MapInfo} {m : ZModel} {codes : List Int}

theorem toZ3List_ret (st : CondState maps) (cs : List Int) :
    CondNode.toZ3List st (cs.map fun c => .leaf (.ret .eq c)) =
      .ok (cs.map fun c => .cmp .eq st.sigma.r0 (bvVal c 64)) := by
  induction cs with
  | nil => rfl
  | cons c cs ih =>
      rw [List.map_cons, CondNode.toZ3List, ih]
      rfl

/-- The condition asks for a return value that is one of the codes. -/
theorem exitConditions_ok {ec : ExitCondition} (h : exitConditions (some codes) = some ec)
    (st : CondState maps) : ∃ body, ec.cond.toZ3 st = .ok body ∧
      (body.eval m = true ↔ ∃ c ∈ codes, st.sigma.r0.eval m = BitVec.ofInt 64 c) := by
  unfold exitConditions at h
  split at h
  · cases h
  · cases h
  · rename_i c heq
    obtain rfl := Option.some.inj heq
    cases h
    exact ⟨_, rfl, by simp [RelOp.term, CmpOp.eval]⟩
  · rename_i cs _ _ heq
    obtain rfl := Option.some.inj heq
    cases h
    refine ⟨orTermsAny (codes.map fun c => .cmp .eq st.sigma.r0 (bvVal c 64)), ?_, ?_⟩
    · dsimp only
      rw [CondNode.toZ3, toZ3List_ret]
      rfl
    · simp [eval_orTermsAny, CmpOp.eval]

end Conditions

section Listed

variable {I : ObjectIdentity} {blocks : List Block} {codes : List Int}

theorem mem_sorted {ns : List Int} {n : Int} : n ∈ sorted ns ↔ n ∈ ns := by
  simp [sorted, List.mem_insertionSort]

/-- Every exit of a program with return codes has constants of its own, all of them listed. -/
theorem leaves_of_retCodes (h : retCodes (exitFacts I blocks) = some codes) {s : Block}
    (hs : s ∈ blocks) (hkind : s.kind = .exit) :
    ∃ ret ns seen, s.retExpr = some ret ∧ leaves I [] ret = some (ns, seen) ∧
      ∀ n ∈ ns, n ∈ codes := by
  obtain ⟨all, hall, rfl⟩ := Option.map_eq_some_iff.mp h
  have hfact : (⟨s.num, retCodesOf I s.retExpr⟩ : ExitFact) ∈ exitFacts I blocks :=
    List.mem_map_of_mem (List.mem_filter.mpr ⟨hs, by simpa using hkind⟩)
  obtain ⟨own, hown, heq⟩ := Lib.exists_mem_of_mapM hall _ hfact
  dsimp only at heq
  unfold retCodesOf at heq
  split at heq
  · cases heq
  · rename_i ns seen hleaves
    obtain ⟨ret, hret, hleaves⟩ := Option.bind_eq_some_iff.mp hleaves
    split at heq
    · cases heq
    · obtain rfl := Option.some.inj heq
      refine ⟨ret, ns, seen, hret, hleaves, fun n hn => ?_⟩
      exact mem_sorted.mpr (List.mem_flatten.mpr ⟨_, hown, mem_sorted.mpr hn⟩)

theorem getElem?_of_mem_exitBlocks (hlinked : WellLinked blocks) {b : Nat}
    (hb : b ∈ exitBlocks blocks) : ∃ s, blocks[b]? = some s ∧ s.kind = .exit := by
  obtain ⟨s, hs, rfl⟩ := List.mem_map.mp hb
  obtain ⟨hmem, hkind⟩ := List.mem_filter.mp hs
  obtain ⟨i, hi⟩ := List.getElem?_of_mem hmem
  rw [hlinked.num i s hi]
  exact ⟨s, hi, of_decide_eq_true hkind⟩

end Listed

section Exits

variable {maps : List MapInfo} {F : ForwardContext maps} {w : Walk maps}

/-- The guards lead from the return value of an exit to a join that has no arm left. -/
def ForwardContext.ReturnsUnbound (F : ForwardContext maps) (w : Walk maps) (m : ZModel)
    (block b : Nat) (r : Int) : Prop :=
  ∃ ret, (F.blocks[block]?).bind Block.retExpr = some ret ∧
    ret.Unbound (ForwardContext.edgeGuard w.info) m b r

theorem guardOf_reads (F : ForwardContext maps) (w : Walk maps) (fuel : Nat) :
    (F.reads w fuel).guardOf = ForwardContext.edgeGuard w.info := by
  cases fuel <;> rfl

/-- An exit whose return value has listed constants only returns a value of the nest. -/
theorem retState_constants {block : Nat} {ret : Expr} {ns : List Int}
    (hret : (F.blocks[block]?).bind Block.retExpr = some ret) (h : ret.Constants ns) :
    ∃ r0, F.retState w block = .ok (some r0) ∧
      ∀ m, Returned (F.reads w F.fuel) m ns ret (r0.eval m).toNat := by
  obtain ⟨t, ht, -⟩ := h.returned (R := F.reads w F.fuel) (m := fun s _ => s.zero) (some block)
    (F.stateAt w block)
  have hterm : F.retState w block = .ok (some (resize t 64)) := by
    unfold ForwardContext.retState ForwardContext.hooked
    rw [hret]
    dsimp only
    rw [ht]
    rfl
  refine ⟨_, hterm, fun m => ?_⟩
  obtain ⟨t', ht', hreturned⟩ := h.returned (R := F.reads w F.fuel) (m := m) (some block)
    (F.stateAt w block)
  obtain rfl := Except.ok.inj (ht.symm.trans ht')
  rw [toNat_resize]
  exact hreturned.mod

end Exits

section Left

variable {maps : List MapInfo} {F : ForwardContext maps} {w : Walk maps}

theorem exists_insertGroup {α : Type} {eq : α → α → Bool} {P : Edge → Prop} {e : Edge} {a : α}
    {gs : List (α × List Edge)} : (∃ g ∈ insertGroup eq e a gs, ∃ e' ∈ g.2, P e') ↔
      P e ∨ ∃ g ∈ gs, ∃ e' ∈ g.2, P e' := by
  induction gs with
  | nil => simp only [insertGroup, List.mem_singleton, exists_eq_left, List.not_mem_nil, false_and,
      exists_false, or_false]
  | cons g gs ih =>
      obtain ⟨b, es⟩ := g
      rw [insertGroup]
      split
      · simp only [List.mem_cons, List.mem_append, List.not_mem_nil, or_false, or_and_right,
          exists_or, exists_eq_left]
        rw [or_assoc, or_left_comm]
      · simp only [List.mem_cons, exists_eq_or_imp, ih]
        exact or_left_comm

/-- The groups of a join have the edges of its entries. -/
theorem exists_groupEdges {α : Type} {eq : α → α → Bool} {P : Edge → Prop}
    (items : List (Edge × α)) :
    (∃ g ∈ groupEdges eq items, ∃ e ∈ g.2, P e) ↔ ∃ x ∈ items, P x.1 := by
  suffices ∀ gs : List (α × List Edge),
      (∃ g ∈ items.foldl (fun gs x => insertGroup eq x.1 x.2 gs) gs, ∃ e ∈ g.2, P e) ↔
        (∃ x ∈ items, P x.1) ∨ ∃ g ∈ gs, ∃ e ∈ g.2, P e by
    have hstart := this []
    simp only [List.not_mem_nil, false_and, exists_false, or_false] at hstart
    exact hstart
  induction items with
  | nil => simp
  | cons x items ih =>
      intro gs
      rw [List.foldl_cons, ih, exists_insertGroup]
      simp only [List.mem_cons, exists_eq_or_imp]
      rw [or_assoc, or_left_comm]

/-- A join has lost its arms exactly when the guards of all its edges are false. -/
theorem keptArms_eq_nil_iff {α : Type} {eq : α → α → Bool} {guardOf : Edge → Guard}
    (value : α → Option Expr) (items : List (Edge × α)) :
    keptArms guardOf ((groupEdges eq items).map fun g => value g.1)
        ((groupEdges eq items).map (·.2)) = [] ↔ ∀ x ∈ items, guardOf x.1 = .ff := by
  have hgroups : (∃ g ∈ groupEdges eq items, ∃ e ∈ g.2, guardOf e ≠ .ff) ↔
      ∃ x ∈ items, guardOf x.1 ≠ .ff := exists_groupEdges items
  have hzip : (((groupEdges eq items).map (·.2)).map fun es => Guard.orAll (es.map guardOf)).zip
      ((groupEdges eq items).map fun g => value g.1) =
      (groupEdges eq items).map fun g => (Guard.orAll (g.2.map guardOf), value g.1) := by
    rw [List.map_map, List.zip_map']
    rfl
  unfold keptArms
  rw [hzip, List.filter_eq_nil_iff]
  simp only [List.forall_mem_map, decide_eq_true_eq, ne_eq, not_not, Guard.orAll_eq_ff]
  rw [← not_iff_not]
  simpa using hgroups

/-- An edge of the graph into block `j` whose guard is not known to be false. -/
def OpenEdge (F : ForwardContext maps) (w : Walk maps) (j : Nat) : Prop :=
  ∃ p pb, F.blocks[p]? = some pb ∧
    ((pb.succT = some j ∧ ForwardContext.edgeGuard w.info (p, .taken) ≠ .ff) ∨
      (pb.succF = some j ∧ ForwardContext.edgeGuard w.info (p, .fall) ≠ .ff))

theorem isSome_of_edgeGuard {info : Nat → Option (ForwardInfo maps)} {e : Edge}
    (h : ForwardContext.edgeGuard info e ≠ .ff) : (info e.1).isSome := by
  unfold ForwardContext.edgeGuard at h
  cases hinfo : info e.1 with
  | none =>
      rw [hinfo] at h
      exact absurd rfl h
  | some pi => rfl

theorem OpenEdge.visited {j : Nat} (h : OpenEdge F w j) {w' : Walk maps}
    (hkept : ∀ p, (w.info p).isSome → w'.info p = w.info p) : OpenEdge F w' j := by
  have hguard : ∀ e : Edge, ForwardContext.edgeGuard w.info e ≠ .ff →
      ForwardContext.edgeGuard w'.info e ≠ .ff := by
    intro e he
    unfold ForwardContext.edgeGuard
    rw [hkept e.1 (isSome_of_edgeGuard he)]
    exact he
  obtain ⟨p, pb, hpb, hedge⟩ := h
  refine ⟨p, pb, hpb, hedge.imp ?_ ?_⟩
  · exact fun ⟨hsucc, he⟩ => ⟨hsucc, hguard _ he⟩
  · exact fun ⟨hsucc, he⟩ => ⟨hsucc, hguard _ he⟩

theorem openEdge_of_contrib {b p : Nat} {c : Guard × Z3State maps}
    (hc : c ∈ ForwardContext.contribsFrom F w b p) : OpenEdge F w b := by
  unfold ForwardContext.contribsFrom at hc
  split at hc
  · rename_i pb pi hpb hpi
    split at hc
    · cases hc
    · obtain ⟨g, hg, rfl⟩ := List.mem_map.mp hc
      obtain ⟨hg, hne⟩ := List.mem_filter.mp hg
      have hne : g ≠ .ff := by simpa using hne
      refine ⟨p, pb, hpb, ?_⟩
      unfold ForwardContext.edgeGuard
      dsimp only
      rw [hpi]
      rcases List.mem_append.mp hg with hg | hg
      · split at hg
        · rename_i hsucc
          rw [List.mem_singleton.mp hg] at hne
          exact .inl ⟨hsucc, hne⟩
        · cases hg
      · split at hg
        · rename_i hsucc
          rw [List.mem_singleton.mp hg] at hne
          exact .inr ⟨hsucc, hne⟩
        · cases hg
  · cases hc

/-- A block that is not shown to be unreachable has an edge that is not. -/
theorem openEdge_of_reach {order : List Nat} (hnodup : order.Nodup)
    (hrun : order.foldlM F.walkBlock { curSigma := F.initSt } = .ok w) {j : Nat}
    {info : ForwardInfo maps} (hinfo : w.info j = some info) (hreach : info.reach ≠ .ff)
    (hentry : j ≠ 0) : OpenEdge F w j := by
  have hall := Lib.foldlM_split_ok (f := F.walkBlock) (fun done w =>
      (∀ i, (w.info i).isSome → i ∈ done) ∧ ∀ i info, w.info i = some info → info.reach ≠ .ff →
        i ≠ 0 → OpenEdge F w i) ⟨by simp, by simp⟩ ?_ hrun
  · exact hall.2 j info hinfo hreach hentry
  · rintro done b rest w w' hsplit ⟨hvisited, hopen⟩ hstep
    have hnew : b ∉ done := by
      rw [hsplit] at hnodup
      exact fun hin => (List.nodup_middle.mp hnodup).notMem (List.mem_append_left _ hin)
    cases hblock : F.blocks[b]? with
    | none =>
        have hsame : w' = w := by
          unfold ForwardContext.walkBlock at hstep
          rw [hblock] at hstep
          exact (Except.ok.inj hstep).symm
        subst hsame
        exact ⟨fun i hi => List.mem_append_left _ (hvisited i hi), hopen⟩
    | some block =>
        obtain ⟨final, binfo, hvisit⟩ := ForwardContext.visits_walkBlock hblock hstep
        have hw' := hvisit.info
        have hkept : ∀ p, (w.info p).isSome → w'.info p = w.info p := by
          intro p hp
          rw [hw', Function.update_of_ne]
          rintro rfl
          exact hnew (hvisited p hp)
        constructor
        · intro i hi
          rw [hw'] at hi
          by_cases hib : i = b
          · simp [hib]
          · rw [Function.update_of_ne hib] at hi
            exact List.mem_append_left _ (hvisited i hi)
        · intro i iinfo hi hireach hizero
          rw [hw'] at hi
          by_cases hib : i = b
          · subst hib
            rw [Function.update_self] at hi
            obtain rfl := Option.some.inj hi
            apply OpenEdge.visited _ hkept
            rw [hvisit.reach] at hireach
            unfold ForwardContext.enterBlock at hireach
            rw [if_neg hizero] at hireach
            dsimp only at hireach
            rw [Ne, Guard.orAll_eq_ff] at hireach
            push Not at hireach
            obtain ⟨g, hg, -⟩ := hireach
            obtain ⟨c, hc, -⟩ := List.mem_map.mp hg
            rw [ForwardContext.contribs_eq] at hc
            obtain ⟨p, -, hc⟩ := List.mem_flatMap.mp hc
            exact openEdge_of_contrib hc
          · rw [Function.update_of_ne hib] at hi
            exact (hopen i iinfo hi hireach hizero).visited hkept

/-- A join of all entries of a reached block has an arm left, unless a branch enters the
block from both sides. -/
theorem join_kept_of_reach (hlinked : WellLinked F.blocks) {order : List Nat}
    (hnodup : order.Nodup) (hw : F.walk order = .ok w) {j : Nat} {self : Block}
    (hself : F.blocks[j]? = some self) (hentry : j ≠ 0) (hreach : w.reachAt j ≠ .ff)
    (hone : ¬∃ p ∈ F.blocks, p.succT = some j ∧ p.succF = some j) {α : Type} {eq : α → α → Bool}
    (value : α → Option Expr) {entries : List α}
    (hlen : entries.length = (self.predEdges F.blocks).length) :
    keptArms (ForwardContext.edgeGuard w.info)
      ((groupEdges eq (((self.predEdges F.blocks).map (·.1)).zip entries)).map fun g => value g.1)
      ((groupEdges eq (((self.predEdges F.blocks).map (·.1)).zip entries)).map (·.2)) ≠ [] := by
  obtain ⟨w', hrun, hw⟩ := Lib.bind_eq_ok.mp hw
  cases hw
  obtain ⟨info, hinfo, hreach⟩ : ∃ info, w'.info j = some info ∧ info.reach ≠ .ff := by
    cases hinfo : w'.info j with
    | none => simp [Walk.reachAt, hinfo] at hreach
    | some info => exact ⟨info, rfl, by simpa [Walk.reachAt, hinfo] using hreach⟩
  obtain ⟨p, pb, hpb, hedge⟩ := openEdge_of_reach hnodup hrun hinfo hreach hentry
  obtain ⟨e, f, hown, hopen⟩ : ∃ e f,
      (e, f, ForwardContext.edgeGuard w'.info e) ∈ ownEdges w'.info F.blocks j ∧
        ForwardContext.edgeGuard w'.info e ≠ .ff := by
    have hnum := hlinked.num p pb hpb
    have hmem := List.mem_of_getElem? hpb
    rcases hedge with ⟨hsucc, hne⟩ | ⟨hsucc, hne⟩
    · refine ⟨(p, .taken), pb.condT, List.mem_flatMap.mpr ⟨pb, hmem, ?_⟩, hne⟩
      simp [Block.edgesInto, hsucc, hnum]
    · refine ⟨(p, .fall), pb.condF, List.mem_flatMap.mpr ⟨pb, hmem, ?_⟩, hne⟩
      simp [Block.edgesInto, hsucc, hnum]
  -- without a branch that enters twice every edge goes by its own name
  have hnamed := ((mergedEdges_perm_iff w'.info hlinked hself).mpr hone).mem_iff.mpr hown
  obtain ⟨x, hx, heq⟩ := List.mem_map.mp hnamed
  obtain rfl : x.1 = e := congrArg (·.1) heq
  rw [Ne, keptArms_eq_nil_iff]
  intro hall
  have hmem : x.1 ∈ (((self.predEdges F.blocks).map (·.1)).zip entries).map Prod.fst := by
    rw [List.map_fst_zip (by rw [List.length_map, hlen])]
    exact List.mem_map_of_mem hx
  obtain ⟨y, hy, hyx⟩ := List.mem_map.mp hmem
  exact hopen (hyx ▸ hall y hy)

end Left

open ForwardContext in
/-- In every model that reaches an exit the return value is one of the codes that the report
lists, and the condition that is written for them holds, exactly when no such model leads from
the return value to a join without arms whose variable is not one of the codes. -/
theorem observed_returns_iff {maps : List MapInfo} {instrs : List Instr} {progs : List ProgRegion}
    {cfg : List Block} {P : Program} {t : Tracker} (hcfg : buildCfg instrs progs = .ok cfg)
    (hP : ∀ i ∈ P.instrs, i.WellFormed) (htrack : track P cfg = .ok t) (I : ObjectIdentity)
    {codes : List Int} (hcodes : retCodes (exitFacts I t.blocks) = some codes)
    {ec : ExitCondition} (hec : exitConditions (some codes) = some ec)
    (F : ForwardContext maps) (hblocks : F.blocks = t.blocks) (w : Walk maps) {b : Nat}
    (hb : b ∈ exitBlocks F.blocks) :
    (∀ m, (w.reachAt b).eval m = true → ∃ st body, F.exitState w b = .ok (some st) ∧
        ec.cond.toZ3 st = .ok body ∧ body.eval m = true ∧
        ∃ c ∈ codes, st.sigma.r0.eval m = BitVec.ofInt 64 c) ↔
      ∀ m, (w.reachAt b).eval m = true → ∀ j r, F.ReturnsUnbound w m b j r →
        ∃ c ∈ codes, m (.bv 64) (.phi j r) = BitVec.ofInt 64 c := by
  have hlinked : WellLinked F.blocks :=
    wellLinked_of_sameGraph (hblocks ▸ sameGraph_track htrack) (wellLinked_buildCfg hcfg)
  obtain ⟨s, hs, hkind⟩ := getElem?_of_mem_exitBlocks hlinked hb
  have hmem : s ∈ t.blocks := hblocks ▸ List.mem_of_getElem? hs
  obtain ⟨ret, ns, seen, hretExpr, hleaves, hns⟩ := leaves_of_retCodes hcodes hmem hkind
  have hret : (F.blocks[b]?).bind Block.retExpr = some ret := by
    rw [hs]
    exact hretExpr
  -- the constants that are listed are those of the value, and they fit
  have hconst : ret.Constants ns := by
    obtain ⟨done, hrun, -⟩ := track_run htrack
    have hwhole := hrun.whole hP (blank_buildCfg hcfg) s hmem
    unfold Block.retExpr at hretExpr
    rw [if_pos (exit_of_kind hkind)] at hretExpr
    obtain ⟨o, ho, rfl⟩ := Option.map_eq_some_iff.mp hretExpr
    exact constants_of_leaves (hwhole.held (.reg 0 ho)).fits hleaves
  obtain ⟨r0, hr0, hreturned⟩ := retState_constants (w := w) hret hconst
  let st : CondState maps :=
    { F.condState w b with sigma := { F.stateAt w b with r0 := r0 } }
  have hstate : F.exitState w b = .ok (some st) := by
    unfold exitState
    rw [hr0]
    rfl
  obtain ⟨body, hbody, -⟩ := exitConditions_ok (m := fun s _ => s.zero) hec st
  have hasked : ∀ m, body.eval m = true ↔ ∃ c ∈ codes, r0.eval m = BitVec.ofInt 64 c := by
    intro m
    obtain ⟨body', hbody', hiff⟩ := exitConditions_ok (m := m) hec st
    obtain rfl := Except.ok.inj (hbody.symm.trans hbody')
    exact hiff
  have hunbound : ∀ m j r, F.ReturnsUnbound w m b j r ↔
      ret.Unbound (F.reads w F.fuel).guardOf m j r := by
    intro m j r
    unfold ReturnsUnbound
    rw [hret, guardOf_reads]
    simp
  apply forall₂_congr
  intro m _
  rw [show (∀ j r, F.ReturnsUnbound w m b j r → _) ↔ _ from
    forall₂_congr fun j r => imp_congr_left (hunbound m j r),
    ← (hreturned m).listed_iff hns]
  constructor
  · rintro ⟨st', body', hst', -, -, hlisted⟩
    rw [hstate] at hst'
    cases hst'
    exact hlisted
  · intro hlisted
    exact ⟨st, body, hstate, hbody, (hasked m).mpr hlisted, hlisted⟩

/-- No two values of a program are the same object. -/
def distinctObjects : ObjectIdentity := ⟨fun _ _ => false, nofun⟩

/-- `r0 = 1; if (ctx->rx_queue_index != 0) r0 = 2; exit` -/
def queueReturns : List Instr :=
  [{ exitInstr with opcodeClass := .LDX, opcodeMode := .MEM, srcReg := 1, dstReg := 2, offset := 16 },
   { exitInstr with opcodeClass := .ALU64, aluCode := .MOV, imm := 1 },
   { exitInstr with jmpCode := .JEQ, dstReg := 2, offset := 1 },
   { exitInstr with opcodeClass := .ALU64, aluCode := .MOV, imm := 2 },
   exitInstr]

/-- A join of constants that has an arm left. -/
def boundNums (guardOf : Edge → Guard) : Expr → Bool
  | .joinValue _ _ values edges =>
      values.all (fun v => match v with | some (.num ..) => true | _ => false) &&
        !(keptArms guardOf values edges).isEmpty
  | _ => false

theorem not_unbound_of_boundNums {guardOf : Edge → Guard} {e : Expr}
    (h : boundNums guardOf e = true) (m : ZModel) (b : Nat) (r : Int) :
    ¬e.Unbound guardOf m b r := by
  intro hun
  cases hun with
  | here hnone => simp [boundNums, hnone] at h
  | arm hchosen hu =>
      rw [boundNums, Bool.and_eq_true, List.all_eq_true] at h
      obtain ⟨g, hg⟩ := mem_of_chosen hchosen
      have hnum := h.1 _ (List.of_mem_zip (List.mem_of_mem_filter hg)).2
      cases hu <;> cases hnum

open ForwardContext in
theorem observed_returns_iff_queue : ∃ w ec,
    (plainContext (trackedBlocks queueReturns)).walk [0, 1, 2] = .ok w ∧
    exitConditions (some [1, 2]) = some ec ∧
    ∀ m, (w.reachAt 2).eval m = true → ∃ st body,
      (plainContext (trackedBlocks queueReturns)).exitState w 2 = .ok (some st) ∧
      ec.cond.toZ3 st = .ok body ∧ body.eval m = true ∧
      ∃ c ∈ [(1 : Int), 2], st.sigma.r0.eval m = BitVec.ofInt 64 c := by
  obtain ⟨cfg, t, hcfg, htrack, hblocks⟩ : ∃ cfg t, buildCfg queueReturns [] = .ok cfg ∧
      track { instrs := queueReturns, maps := [], progs := [], rodata := [] } cfg = .ok t ∧
      trackedBlocks queueReturns = t.blocks := ⟨_, _, rfl, rfl, rfl⟩
  have hP : ∀ i ∈ queueReturns, (-2 ^ 31 ≤ i.imm ∧ i.imm < 2 ^ 31) ∧
      (i.isAlu → i.aluCode ≠ .code_e ∧ i.aluCode ≠ .code_f) := by decide
  have hcodes : retCodes (exitFacts distinctObjects (trackedBlocks queueReturns)) = some [1, 2] := by
    decide +kernel
  have hbound : Lib.okAnd ((plainContext (trackedBlocks queueReturns)).walk [0, 1, 2]) (fun w =>
      (((trackedBlocks queueReturns)[2]?).bind Block.retExpr).any (boundNums (edgeGuard w.info))) =
        true := by
    decide +kernel
  obtain ⟨w, hw, hbound⟩ := Lib.okAnd_eq_true hbound
  refine ⟨w, _, hw, rfl, ?_⟩
  apply (observed_returns_iff hcfg (fun i hi => ⟨(hP i hi).1, (hP i hi).2⟩) htrack distinctObjects
    (hblocks ▸ hcodes) rfl (plainContext (trackedBlocks queueReturns)) hblocks w
    (by decide +kernel)).mpr
  rintro m - j r ⟨ret, hret, hun⟩
  rw [show (plainContext (trackedBlocks queueReturns)).blocks = trackedBlocks queueReturns from rfl]
    at hret
  rw [hret] at hbound
  exact absurd hun (not_unbound_of_boundNums hbound m j r)

/-- `r2 = 0; r0 = 1; if (r2 == 1) goto two; if (r2 == 0) goto out; out: exit; two: r0 = 2;
goto out` -/
def bothSides : List Instr :=
  [{ exitInstr with opcodeClass := .ALU64, aluCode := .MOV, dstReg := 2 },
   { exitInstr with opcodeClass := .ALU64, aluCode := .MOV, imm := 1 },
   { exitInstr with jmpCode := .JEQ, dstReg := 2, imm := 1, offset := 2 },
   { exitInstr with jmpCode := .JEQ, dstReg := 2 },
   exitInstr,
   { exitInstr with opcodeClass := .ALU64, aluCode := .MOV, imm := 2 },
   { exitInstr with jmpCode := .JA, offset := -3 }]

open ForwardContext in
/-- A branch with both sides into the exit, of which the taken one is followed: the join of
the codes 1 and 2 loses both arms, and some model returns 7. -/
theorem observed_returns_violated :
    ∃ (F : ForwardContext []) (w : Walk []) (m : ZModel) (st : CondState []),
      F.blocks = trackedBlocks bothSides ∧ backEdges (F.blocks.map blockFact) = [] ∧
      topoOrder F.blocks (keptBlocks F.blocks none) = .ok [0, 3, 1, 2] ∧
      F.walk [0, 3, 1, 2] = .ok w ∧
      retCodes (exitFacts distinctObjects F.blocks) = some [1, 2] ∧
      2 ∈ exitBlocks F.blocks ∧ (w.reachAt 2).eval m = true ∧
      F.exitState w 2 = .ok (some st) ∧ ¬∃ c ∈ [(1 : Int), 2], st.sigma.r0.eval m = BitVec.ofInt 64 c := by
  let F : ForwardContext [] :=
    { plainContext (trackedBlocks bothSides) with simplifier := groundSimplifier }
  let m : ZModel := Model.ofNats fun v => if v = Var.phi 2 0 then some 7 else none
  have hviolated : Lib.okAnd (F.walk [0, 3, 1, 2]) (fun w => (w.reachAt 2).eval m &&
      Lib.okAnd (F.exitState w 2) fun st => st.any fun st => decide (st.sigma.r0.eval m = 7#64)) =
        true := by
    decide +kernel
  obtain ⟨w, hw, hviolated⟩ := Lib.okAnd_eq_true hviolated
  obtain ⟨hreach, hviolated⟩ := (Bool.and_eq_true _ _).mp hviolated
  obtain ⟨st, hst, hviolated⟩ := Lib.okAnd_eq_true hviolated
  obtain ⟨st, rfl, hseven⟩ := (Option.any_eq_true _ _).mp hviolated
  refine ⟨F, w, m, st, rfl, by decide +kernel, by decide +kernel, hw, by decide +kernel,
    by decide +kernel, hreach, hst, ?_⟩
  rw [of_decide_eq_true hseven]
  decide
end Hornet
