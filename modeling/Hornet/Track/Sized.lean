import Hornet.Track.Built

/-!
The sizes that values declare. Every value the tracker builds has a size that goes
with its term: the width of the term is eight times the size, save for the values
that stand for a field of the context.
-/

namespace Hornet

/-- The size goes with the kind of value. -/
def Expr.sized : Expr → Prop
  | .pktLen size _ => size = 4 ∨ size = 8
  | .unary .END _ _ imm size _ => size = endSize imm
  | .unary _ _ _ _ size _ => size = 4 ∨ size = 8
  | .ptr _ => False
  | _ => True

/-- The variable offset of a pointer is sized, and one into a map value names its map. -/
structure PTR.Sized (p : PTR Expr) : Prop where
  varOff : ∀ v, p.varOff = some v → v.sized
  mapId : p.ptrType = .MAP_VALUE → p.mapId.isSome

/-- A value of a slot: a pointer that is sized, or a sized value. -/
def Expr.slotSized : Expr → Prop
  | .ptr p => p.Sized
  | e => e.sized

theorem Expr.slotSized.sized {e : Expr} (h : e.slotSized) (hptr : e.isPTR = false) : e.sized := by
  cases e <;> first | exact h | cases hptr

/-- Every value of the block is sized. -/
structure Block.Sized (b : Block) : Prop where
  held : ∀ o, b.Holds o → o.val.slotSized
  tailCtx : ∀ o, b.tailCtx = some o → o.val.slotSized

theorem Block.Sized.reg {b : Block} (h : b.Sized) {r : Reg} {e : Expr} (hr : b.reg r = some e) :
    e.slotSized := by
  obtain ⟨o, ho, rfl⟩ := Option.map_eq_some_iff.mp hr
  exact h.held o (.reg r ho)

variable {wf : Prop}

/-- A value of the grammar that is no pointer is sized. -/
theorem Expr.Built.sized {e : Expr} (h : e.Built wf) (hptr : e.isPTR = false) : e.sized := by
  cases h with
  | pktLen hsize => exact hsize
  | sext _ _ _ hsize => exact hsize
  | neg _ _ _ hsize => exact hsize
  | swap => rfl
  | ptr => cases hptr
  | _ => trivial

theorem Expr.Built.slotSized {e : Expr} (h : e.Built wf) : e.slotSized := by
  cases e with
  | ptr p =>
      constructor
      · intro v hv
        obtain ⟨hbuilt, hscalar⟩ := h.varOff hv
        exact hbuilt.sized hscalar
      · exact h.mapId
  | _ => exact h.sized rfl

/-- The values of every tracked block are sized. -/
theorem TrackPoint.sized {P : Program} {cfg : List Block} {b : Block} (hblank : ∀ b ∈ cfg, b.Blank)
    (h : TrackPoint P cfg b) : b.Sized := by
  have hbuilt : b.Built False := h.built False.elim hblank
  constructor
  · intro o ho
    exact (hbuilt.held o ho).slotSized
  · intro o ho
    exact (hbuilt.tailCtx o ho).slotSized

end Hornet
