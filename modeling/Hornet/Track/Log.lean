import Hornet.Track.Frame

/-!
What the tracker records of a block. Each instruction performs at most one action, so the
actions of a block name it, and stand in the order of its instructions.
-/

namespace Hornet

/-- The actions of a block are performed by its own instructions, one after the other. -/
structure Block.Logged (b : Block) : Prop where
  placed : ∀ e ∈ b.actions, e.block = b.num
  within : ∀ e ∈ b.actions, (b.start : Int) ≤ e.idx ∧ e.idx ≤ b.end
  steps : b.actions.Pairwise fun e e' => e.idx < e'.idx

section Log

variable {P : Program} {blocks : List Block} {entered b b' : Block} {done : List Nat} {idx : Nat}

/-- The log of a block that was entered as `entered`, after the instructions `done`. -/
structure LogAfter (entered : Block) (done : List Nat) (b : Block) : Prop where
  frame : b.frame = entered.frame
  placed : ∀ e ∈ b.actions, e.block = entered.num
  performed : ∀ e ∈ b.actions, ∃ i ∈ done, e.idx = (i : Int)
  steps : b.actions.Pairwise fun e e' => e.idx < e'.idx

theorem LogAfter.trackInstr (h : LogAfter entered done b) (hlater : ∀ i ∈ done, i < idx)
    (hstep : trackInstr P blocks b idx = .ok b') : LogAfter entered (done ++ [idx]) b' := by
  have hnum : b.num = entered.num := congrArg (·.1.num) h.frame
  obtain ⟨instr, -, hlogs⟩ := logs_trackInstr hstep
  have hframe : b'.frame = entered.frame := hlogs.frame.trans h.frame
  have hsame : b'.actions = b.actions → LogAfter entered (done ++ [idx]) b' := by
    intro hactions
    refine ⟨hframe, ?_, ?_, ?_⟩
    · rw [hactions]
      exact h.placed
    · intro e he
      rw [hactions] at he
      obtain ⟨i, hi, heq⟩ := h.performed e he
      exact ⟨i, List.mem_append_left _ hi, heq⟩
    · rw [hactions]
      exact h.steps
  cases hlogs with
  | nothing houtline => exact hsame (congrArg (·.2.2.1) houtline)
  | named r _ _ _ houtline =>
      rw [Block.outline_addRetval] at houtline
      exact hsame (congrArg (·.2.2.1) houtline)
  | one a _ houtline =>
      have hactions : b'.actions = b.actions ++ [⟨b.num, idx, a⟩] := congrArg (·.2.2.1) houtline
      refine ⟨hframe, ?_, ?_, ?_⟩
      · intro e he
        rw [hactions, List.mem_append, List.mem_singleton] at he
        rcases he with he | rfl
        · exact h.placed e he
        · exact hnum
      · intro e he
        rw [hactions, List.mem_append, List.mem_singleton] at he
        rcases he with he | rfl
        · obtain ⟨i, hi, heq⟩ := h.performed e he
          exact ⟨i, List.mem_append_left _ hi, heq⟩
        · exact ⟨idx, by simp, rfl⟩
      · rw [hactions, List.pairwise_append]
        refine ⟨h.steps, List.pairwise_singleton _ _, fun e he e' he' => ?_⟩
        obtain rfl := List.mem_singleton.mp he'
        obtain ⟨i, hi, heq⟩ := h.performed e he
        rw [heq]
        exact Int.ofNat_lt.mpr (hlater i hi)

/-- A tracked block has a log of its own. -/
theorem logged_instrs (hentered : entered.actions = [])
    (h : (List.range' entered.start (entered.end + 1 - entered.start)).foldlM
      (trackInstr P blocks) entered = .ok b) : b.Logged := by
  have hlog : LogAfter entered (List.range' entered.start (entered.end + 1 - entered.start)) b := by
    refine Lib.foldlM_split_ok (LogAfter entered) ⟨rfl, ?_, ?_, ?_⟩ ?_ h
    · simp [hentered]
    · simp [hentered]
    · simp [hentered]
    · intro done idx rest b b' hsplit hdone hstep
      refine hdone.trackInstr (fun i hi => ?_) hstep
      have hsorted : (done ++ idx :: rest).Pairwise (· < ·) := hsplit ▸ List.pairwise_lt_range'
      exact (List.pairwise_append.mp hsorted).2.2 i hi idx List.mem_cons_self
  have hnum : b.num = entered.num := congrArg (·.1.num) hlog.frame
  have hstart : b.start = entered.start := congrArg (·.1.start) hlog.frame
  have hend : b.end = entered.end := congrArg (·.1.end) hlog.frame
  refine ⟨fun e he => (hlog.placed e he).trans hnum.symm, fun e he => ?_, hlog.steps⟩
  obtain ⟨i, hi, heq⟩ := hlog.performed e he
  obtain ⟨hlow, hhigh⟩ := List.mem_range'_1.mp hi
  rw [hstart, hend, heq]
  omega

/-- The actions of every tracked block stand in the order of its instructions. -/
theorem logged_track {cfg : List Block} {t : Tracker} (h : track P cfg = .ok t) :
    ∀ b ∈ t.blocks, b.Logged :=
  track_forall (fun hempty _ hrun => logged_instrs hempty hrun) h

end Log

end Hornet
