import Hornet.Verify.Verdicts

/-!
The return values that a program can produce. Each candidate is asked of one exit after
the other until some exit returns it.
-/

namespace Hornet

open Smt Lib

variable {maps : List MapInfo}

namespace ForwardContext

variable (F : ForwardContext maps) (w : Walk maps) (answers : Nat → Answer)

/-- Whether one of the exits returns the value, asked until the first that does. -/
def returnedAt (value : Int) : List Nat → Session → Except LowerError (Bool × Session)
  | [], s => pure (false, s)
  | b :: bs, s => do
      match ← F.exitState w b with
      | none => throw .noEncoding
      | some st =>
          let (found, s) := decideQuery answers s b (w.reachAt b)
            (.term (.cmp .eq st.sigma.r0 (bvVal value 64)))
          if found then pure (true, s) else returnedAt value bs s

/-- The candidates that some exit returns, in their order. -/
def reachableReturnValues (values : List Int) (s : Session) :
    Except LowerError (List Int × Session) :=
  values.foldlM (fun out value => do
    let (found, s) ← F.returnedAt w answers value (F.boundExits w) out.2
    pure (if found then out.1 ++ [value] else out.1, s)) ([], s)

/-- The condition that the return value is `value`. -/
def isReturned (value : Int) : CondNode := .leaf (.ret .eq value)

variable {F w answers} {m : ZModel} {s s' : Session} {b : Nat} {value : Int}

theorem asked_returnedAt {bs : List Nat} {found : Bool}
    (h : F.returnedAt w answers value bs s = .ok (found, s')) : s.asked <+: s'.asked := by
  induction bs generalizing s with
  | nil =>
      cases h
      exact List.prefix_refl _
  | cons b bs ih =>
      obtain ⟨o, hstate, h⟩ := bind_eq_ok.mp h
      cases o with
      | none => cases h
      | some st =>
          have hquery : s.asked <+: (decideQuery answers s b (w.reachAt b)
              (.term (.cmp .eq st.sigma.r0 (bvVal value 64)))).2.asked := asked_decideQuery s b _ _
          dsimp only at h
          split at h
          · cases h
            exact hquery
          · exact hquery.trans (ih h)

/-- With right answers an exit is found exactly if a model returns the value at one. -/
theorem returnedAt_iff {bs : List Nat} {found : Bool}
    (h : F.returnedAt w answers value bs s = .ok (found, s'))
    (hright : ∀ a ∈ s'.asked, a.Correct) :
    found = true ↔ ∃ b ∈ bs, ∃ m, F.Returns w b (isReturned value) true m := by
  induction bs generalizing s with
  | nil =>
      cases h
      simp
  | cons b bs ih =>
      obtain ⟨o, hstate, h⟩ := bind_eq_ok.mp h
      cases o with
      | none => cases h
      | some st =>
          have hreturns : ∀ m, F.Returns w b (isReturned value) true m ↔
              (w.reachAt b).eval m = true ∧
                (Term.cmp .eq st.sigma.r0 (bvVal value 64)).eval m = true := by
            refine fun m => ⟨?_, fun hm => ⟨st, _, hstate, rfl, hm⟩⟩
            rintro ⟨st', body, hst', hbody, hm⟩
            obtain rfl := Option.some.inj (Except.ok.inj (hstate.symm.trans hst'))
            obtain rfl := Except.ok.inj hbody
            exact hm
          have hfound := decideQuery_meets answers s b (w.reachAt b) .exists
            (.cmp .eq st.sigma.r0 (bvVal value 64))
          simp only [AssertMode.body, AssertMode.wanted, ← hreturns] at hfound
          rw [List.exists_mem_cons_iff]
          dsimp only at h
          split at h
          · rename_i hyes
            cases h
            exact iff_of_true rfl (.inl ((hfound hright).mp hyes))
          · rename_i hno
            have hnone := (hfound (right_before (asked_returnedAt h) hright)).not.mp hno
            rw [ih h]
            exact (or_iff_right hnone).symm

/-- An exit that a path returns from is among those that are asked. -/
theorem mem_boundExits_of_returns {order : List Nat} (hw : F.walk order = .ok w) {c : CondNode}
    {v : Bool} (hexit : b ∈ exitBlocks F.blocks) (h : F.Returns w b c v m) : b ∈ F.boundExits w := by
  obtain ⟨st, -, hst, -, hreach, -⟩ := h
  have hlive : w.reachAt b ≠ .ff := by
    intro hff
    rw [hff] at hreach
    cases hreach
  have hinfo : (w.info b).isSome = true := by
    refine Option.isSome_iff_ne_none.mpr fun hnone => ?_
    exact hlive (reachAt_of_info_none hw hnone)
  refine List.mem_filter.mpr ⟨List.mem_filter.mpr ⟨hexit, ?_⟩, (exitState_isSome hst).symm⟩
  rw [hinfo, Bool.true_and, decide_eq_true hlive]

end ForwardContext

section Values

open Classical ForwardContext

/-- Over an acyclic graph and with right answers, the return values that the program is said
to produce are those of the candidates that some path ends with. -/
theorem reachableReturnValues_eq_paths (F : ForwardContext maps) (hfold : ∀ r, F.fold r = false)
    (hlinked : WellLinked F.blocks) (hacyclic : Acyclic F.blocks) (hentry : 0 < F.blocks.length)
    (hfree : ∀ block ∈ F.blocks, ∀ c, block.cond = some c → c.WidthFree)
    (targets : Option (List Nat)) :
    ∃ order, topoOrder F.blocks (keptBlocks F.blocks targets) = .ok order ∧
      ∀ w, F.walk order = .ok w → ∀ (answers : Nat → Answer) (values out : List Int) (s : Session),
        F.reachableReturnValues w answers values {} = .ok (out, s) →
        (∀ a ∈ s.asked, a.Correct) →
          out = values.filter fun value => decide (∃ b ∈ exitBlocks F.blocks, ∃ m,
            F.PathReturns w order b (isReturned value) true m) := by
  obtain ⟨order, horder⟩ := topoOrder_ok hlinked hacyclic (kept_keptBlocks hentry targets)
  refine ⟨order, horder, fun w hw answers values out s hrun => ?_⟩
  have hrefines := refines_walk hfold hlinked hfree hentry horder hw
  have hreturns : ∀ b value m, F.Returns w b (isReturned value) true m ↔
      F.PathReturns w order b (isReturned value) true m := fun b value m => by
    obtain ⟨path, hpath⟩ := hrefines m
    exact hpath.returns_iff hfold (curBlock_walk hw) rfl
  have hexits : ∀ value, (∃ b ∈ F.boundExits w, ∃ m, F.Returns w b (isReturned value) true m) ↔
      ∃ b ∈ exitBlocks F.blocks, ∃ m, F.PathReturns w order b (isReturned value) true m := by
    intro value
    simp only [← hreturns]
    constructor
    · rintro ⟨b, hb, hm⟩
      exact ⟨b, (List.mem_filter.mp (List.mem_filter.mp hb).1).1, hm⟩
    · rintro ⟨b, hb, m, hm⟩
      exact ⟨b, mem_boundExits_of_returns hw hb hm, m, hm⟩
  suffices (∀ a ∈ s.asked, a.Correct) → (out, s).1 = values.filter fun value =>
      decide (∃ b ∈ exitBlocks F.blocks, ∃ m, F.PathReturns w order b (isReturned value) true m) from
    this
  refine foldlM_ok (fun done out => (∀ a ∈ out.2.asked, a.Correct) → out.1 = done.filter fun value =>
    decide (∃ b ∈ exitBlocks F.blocks, ∃ m, F.PathReturns w order b (isReturned value) true m))
    (fun _ => rfl) ?_ hrun
  rintro done value acc acc' hdone - hstep hright
  obtain ⟨⟨found, s₁⟩, hfound, hstep⟩ := bind_eq_ok.mp hstep
  cases hstep
  have hiff := (returnedAt_iff hfound hright).trans (hexits value)
  rw [List.filter_append, ← hdone (right_before (asked_returnedAt hfound) hright)]
  cases found with
  | true => simp [hiff.mp rfl]
  | false => simp [hiff.not.mp Bool.false_ne_true]

theorem reachableReturnValues_eq_paths_reset : ∃ w s,
    (plainContext (trackedBlocks queueReset)).walk [0, 1, 2] = .ok w ∧
    (plainContext (trackedBlocks queueReset)).reachableReturnValues w (fun _ => .sat) [2] {} =
      .ok ([2], s) ∧
    [2] = [(2 : Int)].filter fun value => decide (∃ b ∈ exitBlocks (trackedBlocks queueReset), ∃ m,
      (plainContext (trackedBlocks queueReset)).PathReturns w [0, 1, 2] b (isReturned value) true
        m) := by
  obtain ⟨order, horder, hvalues⟩ := reachableReturnValues_eq_paths
    (plainContext (trackedBlocks queueReset)) (fun _ => rfl) wellLinked_queueReset
    acyclic_queueReset (by decide) widthFree_queueReset none
  obtain rfl : order = [0, 1, 2] := Except.ok.inj (horder.symm.trans topoOrder_queueReset)
  have hrun : okAnd ((plainContext (trackedBlocks queueReset)).walk [0, 1, 2]) (fun w =>
      okAnd ((plainContext (trackedBlocks queueReset)).reachableReturnValues w (fun _ => .sat) [2] {})
        fun r => decide (r.1 = [2]) && r.2.asked.all fun a =>
          decide (a.answer = .sat) && a.query.eval fun s _ => s.zero) = true := by
    decide +kernel
  obtain ⟨w, hw, hrun⟩ := okAnd_eq_true hrun
  obtain ⟨⟨out, s⟩, hout, hrun⟩ := okAnd_eq_true hrun
  obtain ⟨htwo, hright⟩ := Bool.and_eq_true_iff.mp hrun
  obtain rfl : out = [2] := of_decide_eq_true htwo
  exact ⟨w, s, hw, hout, hvalues w hw _ [2] [2] s hout (correct_of_model _ hright)⟩

end Values

end Hornet
