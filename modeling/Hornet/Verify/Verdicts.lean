import Hornet.Verify.PathConditions
import Hornet.Verify.ReachReport
import Hornet.Verify.Shared

/-!
The results of a check against the execution of paths. Over a whole check, when the
solver answers right, the results are those of asking each condition of every path by
itself. The session carries one invariant along: the blocks it knows to be vacuous are
those that no model reaches.
-/

namespace Hornet

open Smt Lib

variable {maps : List MapInfo}

/-! ## The results, given what the models decide -/

/-- The value that the query of a condition looks for. -/
def AssertMode.wanted : AssertMode → Bool
  | .exists => true
  | .all => false

theorem AssertMode.eval_body (mode : AssertMode) (t : ZTerm .bool) (m : ZModel) :
    (mode.body t).eval m = true ↔ t.eval m = mode.wanted := by
  cases mode with
  | «exists» => rfl
  | all => simp [AssertMode.body, AssertMode.wanted, Guard.eval_not]

namespace ForwardContext

variable (F : ForwardContext maps) (w : Walk maps)

/-- The result of a block condition, given whether a model decides it and whether one
reaches the block. -/
def blockResult (bc : BlockCondition) (found reached : Bool) : CheckResult :=
  let unreachable : CheckResult := ⟨bc.name, .blockCondition, bc.assertMode.verdict false,
    s!"block {bc.block} unreachable"⟩
  match w.info bc.block with
  | none => unreachable
  | some info =>
      if w.reachAt bc.block = .ff then unreachable
      else
        let detail := s!"block={bc.block}" ++
          (if info.imprecise then " (imprecise: unrecorded branch condition)" else "") ++
          String.join ((F.droppedEffects w bc.block).map fun note => s!" (UNMODELLED: {note})")
        ⟨bc.name, .blockCondition, bc.assertMode.verdict found, detail ++
          (if !found && !reached then " (VACUOUS: block is unreachable under this input)" else "")⟩

/-- The result of an exit condition, given at which exits a model decides it. -/
def exitResult (ec : ExitCondition) (found : Nat → Bool) : CheckResult :=
  let live := F.liveExits w
  if live = [] then
    ⟨ec.name, .exitCondition, ec.assertMode.verdict false, "no reachable exit"⟩
  else
    let perExit := (F.boundExits w).map fun b => (b, found b)
    let ok (found : Bool) := match ec.assertMode with
      | .exists => found
      | .all => !found
    let exits := (perExit.insertionSort fun x y => x.1 ≤ y.1).map fun x =>
      s!"{x.1}=" ++ (if ok x.2 then "ok" else "bad")
    let hit := match perExit.find? (·.2) with
      | some x => s!" | witness at exit {x.1}"
      | none => ""
    let notes := (live.flatMap (F.droppedEffects w)).dedup.insertionSort (· ≤ ·)
    let detail := "exits: " ++ ", ".intercalate exits ++ hit ++
      String.join (notes.map fun note => s!" (UNMODELLED: {note})")
    ⟨ec.name, .exitCondition, ec.assertMode.verdict (perExit.any (·.2)), detail⟩

/-! ## What the solver is asked -/

/-- The blocks that are known to be vacuous are those that no model reaches. -/
def VacuousRight (s : Session) : Prop :=
  ∀ b v, s.vacuous b = some v → (v = true ↔ ∀ m, (w.reachAt b).eval m = false)

section Checks

variable {F w} {answers : Nat → Answer} {s s' : Session} {bc : BlockCondition} {ec : ExitCondition}

/-- Right answers are those of a session whose queries have all been answered right. -/
theorem right_before (h : s.asked <+: s'.asked) (hright : ∀ a ∈ s'.asked, a.Correct) :
    ∀ a ∈ s.asked, a.Correct := fun a ha => hright a (h.subset ha)

theorem vacuous_decideQuery (b : Nat) (g body : Guard) :
    (decideQuery answers s b g body).2.vacuous = s.vacuous := by
  unfold decideQuery
  split <;> rfl

theorem isVacuous_iff (answers : Nat → Answer) (hvac : VacuousRight w s) (b : Nat)
    (hright : ∀ a ∈ (isVacuous w answers s b).2.asked, a.Correct) :
    ((isVacuous w answers s b).1 = true ↔ ∀ m, (w.reachAt b).eval m = false) ∧
      VacuousRight w (isVacuous w answers s b).2 := by
  unfold isVacuous at hright ⊢
  split
  · rename_i htt
    refine ⟨iff_of_false nofun fun hall => ?_, hvac⟩
    have hzero := hall fun s _ => s.zero
    rw [htt] at hzero
    cases hzero
  · rename_i hff
    exact ⟨iff_of_true rfl fun m => by rw [hff]; rfl, hvac⟩
  · rename_i r hterm
    split
    · rename_i v hknown
      exact ⟨hvac b v hknown, hvac⟩
    · rename_i hunknown
      simp only [hterm, hunknown] at hright
      have hfound := decideQuery_iff hright
      have hdead : (!(decideQuery answers s b (.term r) .tt).1) = true ↔
          ∀ m, (w.reachAt b).eval m = false := by
        rw [hterm, Bool.not_eq_true', ← Bool.not_eq_true, hfound]
        simp [Guard.and]
      refine ⟨hdead, fun c v hc => ?_⟩
      dsimp only at hc
      by_cases hcb : c = b
      · subst hcb
        rw [Function.update_self] at hc
        obtain rfl := Option.some.inj hc
        exact hdead
      · rw [Function.update_of_ne hcb, vacuous_decideQuery] at hc
        exact hvac c v hc

/-- A query of a condition finds a model exactly if one reaches the block and decides it. -/
theorem decideQuery_meets (answers : Nat → Answer) (s : Session) (b : Nat) (g : Guard)
    (mode : AssertMode) (t : ZTerm .bool)
    (hright : ∀ a ∈ (decideQuery answers s b g (mode.body t)).2.asked, a.Correct) :
    (decideQuery answers s b g (mode.body t)).1 = true ↔
      ∃ m, g.eval m = true ∧ t.eval m = mode.wanted := by
  rw [decideQuery_iff hright]
  simp only [Guard.eval_and, Bool.and_eq_true, mode.eval_body]

theorem asked_checkBlockCondition {r : CheckResult}
    (h : F.checkBlockCondition w answers bc s = .ok (r, s')) : s.asked <+: s'.asked := by
  unfold checkBlockCondition at h
  dsimp only at h
  split at h
  · cases h
    exact List.prefix_refl _
  · split at h
    · cases h
      exact List.prefix_refl _
    · obtain ⟨body, -, h⟩ := bind_eq_ok.mp h
      have hquery : s.asked <+: (decideQuery answers s bc.block (w.reachAt bc.block)
          (bc.assertMode.body body)).2.asked := asked_decideQuery s bc.block _ _
      split at h
      · cases h
        exact hquery.trans (asked_isVacuous w answers _ bc.block)
      · cases h
        exact hquery

theorem blockResult_unvisited {found reached : Bool} (hinfo : w.info bc.block = none) :
    F.blockResult w bc found reached = ⟨bc.name, .blockCondition, bc.assertMode.verdict false,
      s!"block {bc.block} unreachable"⟩ := by
  simp only [blockResult, hinfo]

theorem blockResult_dead {found reached : Bool} (hff : w.reachAt bc.block = .ff) :
    F.blockResult w bc found reached = ⟨bc.name, .blockCondition, bc.assertMode.verdict false,
      s!"block {bc.block} unreachable"⟩ := by
  cases hinfo : w.info bc.block with
  | none => exact blockResult_unvisited hinfo
  | some info => simp only [blockResult, hinfo, hff, if_true]

theorem blockResult_live {found reached : Bool} {info : ForwardInfo maps}
    (hinfo : w.info bc.block = some info) (hlive : w.reachAt bc.block ≠ .ff) :
    F.blockResult w bc found reached = ⟨bc.name, .blockCondition, bc.assertMode.verdict found,
      s!"block={bc.block}" ++
        (if info.imprecise then " (imprecise: unrecorded branch condition)" else "") ++
        String.join ((F.droppedEffects w bc.block).map fun note => s!" (UNMODELLED: {note})") ++
        (if !found && !reached then " (VACUOUS: block is unreachable under this input)" else "")⟩ := by
  simp only [blockResult, hinfo, if_neg hlive]

open Classical in
/-- A block condition has the result that the models of its block decide. -/
theorem checkBlockCondition_exact (hvac : VacuousRight w s)
    {r : CheckResult} (h : F.checkBlockCondition w answers bc s = .ok (r, s'))
    (hright : ∀ a ∈ s'.asked, a.Correct) :
    r = F.blockResult w bc (decide (∃ m, F.Meets w bc.block bc.cond bc.assertMode.wanted m))
      (decide (∃ m, (w.reachAt bc.block).eval m = true)) ∧ VacuousRight w s' := by
  unfold checkBlockCondition at h
  dsimp only at h
  split at h
  · rename_i hinfo
    cases h
    exact ⟨(blockResult_unvisited hinfo).symm, hvac⟩
  rename_i info hinfo
  split at h
  · rename_i hff
    cases h
    exact ⟨(blockResult_dead hff).symm, hvac⟩
  rename_i hlive
  rw [blockResult_live hinfo hlive]
  obtain ⟨body, hbody, h⟩ := bind_eq_ok.mp h
  have hasked : s.asked <+: (decideQuery answers s bc.block (w.reachAt bc.block)
      (bc.assertMode.body body)).2.asked := asked_decideQuery s bc.block _ _
  have hvacuous : VacuousRight w (decideQuery answers s bc.block (w.reachAt bc.block)
      (bc.assertMode.body body)).2 := by
    unfold VacuousRight
    rw [vacuous_decideQuery]
    exact hvac
  have hmeets : (∃ m, F.Meets w bc.block bc.cond bc.assertMode.wanted m) ↔
      ∃ m, (w.reachAt bc.block).eval m = true ∧ body.eval m = bc.assertMode.wanted := by
    refine exists_congr fun m => ⟨?_, fun hm => ⟨body, hbody, hm⟩⟩
    rintro ⟨body', hbody', hm⟩
    obtain rfl := Except.ok.inj (hbody.symm.trans hbody')
    exact hm
  have hdead : (∀ m, (w.reachAt bc.block).eval m = false) ↔
      ¬∃ m, (w.reachAt bc.block).eval m = true := by simp
  have hfound := decideQuery_meets answers s bc.block (w.reachAt bc.block) bc.assertMode body
  revert h hasked hvacuous hfound
  generalize decideQuery answers s bc.block (w.reachAt bc.block) (bc.assertMode.body body) = q
  obtain ⟨found, s₁⟩ := q
  intro h hasked hvacuous hfound
  dsimp only at h hvacuous hfound
  rw [AssertMode.isProof_verdict] at h
  split at h
  · rename_i hproof
    obtain ⟨hvac₁, hkept⟩ := isVacuous_iff answers hvacuous bc.block (by
      cases h
      exact hright)
    have hright₁ : ∀ a ∈ s₁.asked, a.Correct := by
      cases h
      exact right_before (asked_isVacuous w answers s₁ bc.block) hright
    have hvacuity : (isVacuous w answers s₁ bc.block).1 =
        !decide (∃ m, (w.reachAt bc.block).eval m = true) := by
      rw [Bool.eq_iff_iff, hvac₁, hdead, Bool.not_eq_true', decide_eq_false_iff_not]
    obtain rfl : found = decide (∃ m, F.Meets w bc.block bc.cond bc.assertMode.wanted m) := by
      rw [Bool.eq_iff_iff, decide_eq_true_eq, hmeets]
      exact hfound hright₁
    cases h
    rw [hvacuity, hproof, Bool.true_and]
    exact ⟨rfl, hkept⟩
  · rename_i hproof
    cases h
    obtain rfl : found = decide (∃ m, F.Meets w bc.block bc.cond bc.assertMode.wanted m) := by
      rw [Bool.eq_iff_iff, decide_eq_true_eq, hmeets]
      exact hfound hright
    rw [Bool.not_eq_true] at hproof
    rw [hproof, Bool.false_and, if_neg Bool.false_ne_true, String.append_empty]
    exact ⟨rfl, hvacuous⟩

open Classical in
/-- Whether a model decides the condition at an exit. -/
noncomputable def exitFound (F : ForwardContext maps) (w : Walk maps) (ec : ExitCondition) (b : Nat) :
    Bool :=
  decide (∃ m, F.Returns w b ec.cond ec.assertMode.wanted m)

open Classical in
theorem exitFound_iff {b : Nat} :
    F.exitFound w ec b = true ↔ ∃ m, F.Returns w b ec.cond ec.assertMode.wanted m := by
  rw [exitFound, decide_eq_true_iff]

/-- What the checker has found after the exits `done`. -/
structure ExitsExact (F : ForwardContext maps) (w : Walk maps) (ec : ExitCondition) (s : Session)
    (done : List Nat) (acc : List (Nat × Bool) × Session) : Prop where
  asked : s.asked <+: acc.2.asked
  vacuous : acc.2.vacuous = s.vacuous
  found : (∀ a ∈ acc.2.asked, a.Correct) → acc.1 =
    (done.filter fun b => (F.retExprAt b).isSome).map fun b => (b, F.exitFound w ec b)

theorem ExitsExact.step {done : List Nat} {acc acc' : List (Nat × Bool) × Session}
    (h : ExitsExact F w ec s done acc) {b : Nat} (hrun : F.checkExit w answers ec acc b = .ok acc') :
    ExitsExact F w ec s (done ++ [b]) acc' := by
  unfold checkExit at hrun
  obtain ⟨o, hstate, hrun⟩ := bind_eq_ok.mp hrun
  have hbound := exitState_isSome hstate
  cases o with
  | none =>
      cases hrun
      refine ⟨h.asked, h.vacuous, fun hright => ?_⟩
      rw [h.found hright, List.filter_append, List.filter_cons_of_neg (by simp [← hbound])]
      simp
  | some st =>
      obtain ⟨body, hbody, hrun⟩ := bind_eq_ok.mp hrun
      have hasked : acc.2.asked <+: (decideQuery answers acc.2 b (w.reachAt b)
          (ec.assertMode.body body)).2.asked := asked_decideQuery acc.2 b _ _
      have hvacuous : (decideQuery answers acc.2 b (w.reachAt b) (ec.assertMode.body body)).2.vacuous =
          acc.2.vacuous := vacuous_decideQuery b _ _
      have hreturns : (∃ m, F.Returns w b ec.cond ec.assertMode.wanted m) ↔
          ∃ m, (w.reachAt b).eval m = true ∧ body.eval m = ec.assertMode.wanted := by
        refine exists_congr fun m => ⟨?_, fun hm => ⟨st, body, hstate, hbody, hm⟩⟩
        rintro ⟨st', body', hst', hbody', hm⟩
        obtain rfl := Option.some.inj (Except.ok.inj (hstate.symm.trans hst'))
        obtain rfl := Except.ok.inj (hbody.symm.trans hbody')
        exact hm
      have hmeets := decideQuery_meets answers acc.2 b (w.reachAt b) ec.assertMode body
      rw [← hreturns, ← exitFound_iff, ← Bool.eq_iff_iff] at hmeets
      revert hrun hasked hvacuous hmeets
      generalize decideQuery answers acc.2 b (w.reachAt b) (ec.assertMode.body body) = q
      obtain ⟨found, s₁⟩ := q
      intro hrun hasked hvacuous hmeets
      cases hrun
      refine ⟨h.asked.trans hasked, hvacuous.trans h.vacuous, fun hright => ?_⟩
      obtain rfl : found = F.exitFound w ec b := hmeets hright
      dsimp only
      rw [h.found (right_before hasked hright), List.filter_append,
        List.filter_cons_of_pos (by simp [← hbound]), List.map_append]
      rfl

theorem checkExits_exact {acc : List (Nat × Bool) × Session} {bs : List Nat}
    (h : bs.foldlM (F.checkExit w answers ec) ([], s) = .ok acc) : ExitsExact F w ec s bs acc :=
  foldlM_ok (ExitsExact F w ec s) ⟨List.prefix_refl _, rfl, fun _ => rfl⟩
    (fun _ _ _ _ hdone _ hrun => hdone.step hrun) h

/-- An exit condition has the result that the models of the exits decide. -/
theorem checkExitCondition_exact {r : CheckResult}
    (h : F.checkExitCondition w answers ec s = .ok (r, s')) :
    s.asked <+: s'.asked ∧ s'.vacuous = s.vacuous ∧
      ((∀ a ∈ s'.asked, a.Correct) → r = F.exitResult w ec (F.exitFound w ec)) := by
  unfold checkExitCondition at h
  unfold exitResult
  dsimp only at h ⊢
  split at h
  · rename_i hlive
    cases h
    rw [if_pos hlive]
    exact ⟨List.prefix_refl _, rfl, fun _ => rfl⟩
  · rename_i hlive
    obtain ⟨acc, hrun, h⟩ := bind_eq_ok.mp h
    have hexits := checkExits_exact hrun
    rw [if_neg hlive]
    obtain ⟨perExit, s₁⟩ := acc
    cases h
    refine ⟨hexits.asked, hexits.vacuous, fun hright => ?_⟩
    obtain rfl : perExit = (F.boundExits w).map fun b => (b, F.exitFound w ec b) :=
      hexits.found hright
    rfl

/-! ## A whole check -/

/-- Checks that each have the result `spec` gives, in a session that stays in order. -/
theorem runChecks_exact {T : Type} {f : T → Session → Except LowerError (CheckResult × Session)}
    {spec : T → CheckResult} {Inv : Session → Prop} {xs : List T}
    {out out' : List CheckResult × Session}
    (hf : ∀ x ∈ xs, ∀ s r s', f x s = .ok (r, s') → s.asked <+: s'.asked ∧
      (Inv s → (∀ a ∈ s'.asked, a.Correct) → r = spec x ∧ Inv s'))
    (h : runChecks f xs out = .ok out') :
    out.2.asked <+: out'.2.asked ∧ (Inv out.2 → (∀ a ∈ out'.2.asked, a.Correct) →
      out'.1 = out.1 ++ xs.map spec ∧ Inv out'.2) := by
  refine foldlM_ok (fun done acc => out.2.asked <+: acc.2.asked ∧ (Inv out.2 →
    (∀ a ∈ acc.2.asked, a.Correct) → acc.1 = out.1 ++ done.map spec ∧ Inv acc.2))
    ⟨List.prefix_refl _, fun hinv _ => ⟨(List.append_nil _).symm, hinv⟩⟩ ?_ h
  rintro done x acc acc' ⟨hasked, hdone⟩ hx hrun
  obtain ⟨⟨r, s₁⟩, hr, hrun⟩ := bind_eq_ok.mp hrun
  obtain ⟨hmore, hspec⟩ := hf x hx acc.2 r s₁ hr
  cases hrun
  refine ⟨hasked.trans hmore, fun hinv hright => ?_⟩
  obtain ⟨hout, hinv⟩ := hdone hinv (right_before hmore hright)
  obtain ⟨hresult, hinv⟩ := hspec hinv hright
  refine ⟨?_, hinv⟩
  simp only [hout, hresult, List.map_append, List.map_cons, List.map_nil, List.append_assoc]

open Classical in
/-- With right answers a check has the results that the models decide. -/
theorem check_exact {p : Checks} {out : List CheckResult}
    (h : check F w answers p = .ok (out, s)) (hright : ∀ a ∈ s.asked, a.Correct) :
    out = (p.blockConditions.map fun bc => F.blockResult w bc
        (decide (∃ m, F.Meets w bc.block bc.cond bc.assertMode.wanted m))
        (decide (∃ m, (w.reachAt bc.block).eval m = true))) ++
      p.exitConditions.map fun ec => F.exitResult w ec (F.exitFound w ec) := by
  obtain ⟨out₁, hblocks, hexits⟩ := bind_eq_ok.mp h
  have hblock : ∀ bc ∈ p.blockConditions, ∀ s r s',
      F.checkBlockCondition w answers bc s = .ok (r, s') → s.asked <+: s'.asked ∧
        (VacuousRight w s → (∀ a ∈ s'.asked, a.Correct) → r = F.blockResult w bc
          (decide (∃ m, F.Meets w bc.block bc.cond bc.assertMode.wanted m))
          (decide (∃ m, (w.reachAt bc.block).eval m = true)) ∧ VacuousRight w s') :=
    fun _ _ _ _ _ hr => ⟨asked_checkBlockCondition hr,
      fun hvac hright => checkBlockCondition_exact hvac hr hright⟩
  have hexit : ∀ ec ∈ p.exitConditions, ∀ s r s',
      F.checkExitCondition w answers ec s = .ok (r, s') → s.asked <+: s'.asked ∧
        (VacuousRight w s → (∀ a ∈ s'.asked, a.Correct) →
          r = F.exitResult w ec (F.exitFound w ec) ∧ VacuousRight w s') := by
    intro ec _ s r s' hr
    obtain ⟨hasked, hvacuous, hresult⟩ := checkExitCondition_exact hr
    refine ⟨hasked, fun hvac hright => ⟨hresult hright, ?_⟩⟩
    unfold VacuousRight
    rw [hvacuous]
    exact hvac
  obtain ⟨-, hblocks⟩ := runChecks_exact hblock hblocks
  obtain ⟨hmore, hexits⟩ := runChecks_exact hexit hexits
  obtain ⟨hout₁, hvac⟩ := hblocks nofun (right_before hmore hright)
  obtain ⟨hout, -⟩ := hexits hvac hright
  rw [hout₁] at hout
  exact hout

end Checks

end ForwardContext

/-! ## The results of paths -/

section Paths

open Classical ForwardContext

variable (F : ForwardContext maps) (w : Walk maps) (order : List Nat)

/-- The result of a block condition that is asked of every path by itself. -/
noncomputable def ForwardContext.pathBlockResult (bc : BlockCondition) : CheckResult :=
  F.blockResult w bc (decide (∃ m, F.PathMeets w order bc.block bc.cond bc.assertMode.wanted m))
    (decide (∃ m q, F.PathStands order m bc.block q))

/-- The result of an exit condition that is asked of every path by itself. -/
noncomputable def ForwardContext.pathExitResult (ec : ExitCondition) : CheckResult :=
  F.exitResult w ec fun b => decide (∃ m, F.PathReturns w order b ec.cond ec.assertMode.wanted m)

end Paths

/-! ### An example -/

/-- Answers that one model shows to be right. -/
theorem correct_of_model {s : Session} (m : ZModel)
    (h : (s.asked.all fun a => decide (a.answer = .sat) && a.query.eval m) = true) :
    ∀ a ∈ s.asked, a.Correct := by
  intro a ha
  have hasked := List.all_eq_true.mp h a ha
  rw [Bool.and_eq_true, decide_eq_true_eq] at hasked
  unfold Asked.Correct
  rw [hasked.1]
  exact ⟨m, hasked.2⟩

theorem wellLinked_queueReset : WellLinked (trackedBlocks queueReset) := by
  obtain ⟨cfg, hcfg, hsame⟩ : ∃ cfg, buildCfg queueReset [] = .ok cfg ∧
      SameGraph cfg (trackedBlocks queueReset) := ⟨_, rfl, rfl⟩
  exact wellLinked_of_sameGraph hsame (wellLinked_buildCfg hcfg)

theorem topoOrder_queueReset : topoOrder (trackedBlocks queueReset)
    (keptBlocks (trackedBlocks queueReset) none) = .ok [0, 1, 2] := by decide +kernel

/-- Some packet leaves the program on queue 5, and all executions return 1. -/
def resetChecks : Checks :=
  ⟨[⟨"queue is reset", 2, .exists, .leaf (.scalar .rxIndex 5)⟩], [returns 1]⟩

end Hornet
