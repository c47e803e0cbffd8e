import Hornet.Track.Extend
import Hornet.Verify.SlicedMemory

/-!
The limits on how deep folded memory is read. They decide whether something is lowered, not
what it is lowered to.
-/

namespace Hornet

open Smt Lib

variable {maps : List MapInfo}

namespace Memory

variable {M : Memory maps} {lower : Expr → Except LowerError ZBv}
  (h : ∀ e, Lib.Extends (M.lower e) (lower e))

include h

theorem lowerSome_extends (o : Option Expr) :
    Lib.Extends (M.lowerSome o) ((M.relower lower).lowerSome o) := by
  cases o with
  | none => exact .refl _
  | some e => exact h e

theorem key_extends (mapId : Nat) (o : Option Expr) :
    Lib.Extends (M.key mapId o) ((M.relower lower).key mapId o) :=
  (lowerSome_extends h o).bind fun _ _ => .refl _

theorem appliesWith_extends {present present' : (mapId : Nat) → ZTerm (.bv (keyBits maps mapId)) →
      Option Nat → Option Int → Except LowerError (ZTerm .bool)}
    (hpresent : ∀ mapId key blk idx,
      Lib.Extends (present mapId key blk idx) (present' mapId key blk idx)) (e : Event) :
    Lib.Extends (M.appliesWith present e) ((M.relower lower).appliesWith present' e) := by
  unfold appliesWith
  split
  · rename_i mapId mapKey value flags size haction
    refine .ite (fun _ => .refl _) fun _ => ?_
    refine (key_extends h mapId mapKey).bind fun k _ => ?_
    exact .orKnown (hpresent mapId k _ _) _ fun _ => .refl _
  · exact .refl _

theorem presentFuel_extends {n n' : Nat} (hn : n ≤ n') (mapId : Nat)
    (key : ZTerm (.bv (keyBits maps mapId))) (atBlock : Option Nat) (atIdx : Option Int) :
    Lib.Extends (M.presentFuel n mapId key atBlock atIdx)
      ((M.relower lower).presentFuel n' mapId key atBlock atIdx) := by
  induction n generalizing n' mapId key atBlock atIdx with
  | zero => exact .throw _ _
  | succ n ih =>
      obtain ⟨n', rfl⟩ := Nat.exists_eq_add_of_le' (Nat.lt_of_succ_le hn)
      cases atBlock with
      | none => exact .refl _
      | some b =>
          refine Lib.Extends.foldlM (fun e _ p => ?_) _
          refine .ite (fun _ => .refl _) fun _ => ?_
          have happlies := appliesWith_extends h (fun i k => ih (Nat.le_of_succ_le_succ hn) i k) e
          cases hkey : e.action.mapKey with
          | none =>
              exact (Lib.Extends.refl _).bind fun g _ => .orKnown happlies _ fun _ => .refl _
          | some k =>
              refine (key_extends h mapId (some k)).bind fun _ _ => ?_
              exact (Lib.Extends.refl _).bind fun g _ => .orKnown happlies _ fun _ => .refl _

theorem writtenByte_extends (a : Action) (off : Int) :
    Lib.Extends (M.writtenByte a off) ((M.relower lower).writtenByte a off) := by
  unfold writtenByte
  refine .ite (fun _ => .refl _) fun _ => ?_
  refine (lowerSome_extends h a.value).bind fun v _ => ?_
  cases a.old with
  | none => exact .refl _
  | some old => exact (h old).bind fun _ _ => .refl _

theorem writeGuard_extends {n n' : Nat} (hn : n ≤ n') (loc : Loc) (e : Event) :
    Lib.Extends (M.writeGuard n loc e) ((M.relower lower).writeGuard n' loc e) := by
  unfold writeGuard
  dsimp only
  refine .orKnown (appliesWith_extends h (presentFuel_extends h hn) e) _ fun applies => ?_
  cases loc.mapId with
  | none => exact .refl _
  | some mapId =>
      refine .ite (fun _ => .refl _) fun _ => .ite (fun _ => .refl _) fun _ => ?_
      refine .ite (fun _ => .refl _) fun _ => .ite (fun _ => .refl _) fun _ => ?_
      refine (key_extends h mapId loc.mapKey).bind fun _ _ => ?_
      exact (key_extends h mapId e.action.mapKey).bind fun _ _ => .refl _

theorem initialAt_extends (loc : Loc) :
    Lib.Extends (M.initialAt loc) ((M.relower lower).initialAt loc) := by
  unfold initialAt
  cases loc.region with
  | MAP =>
      cases loc.mapId with
      | none => exact .refl _
      | some mapId => exact (key_extends h mapId loc.mapKey).bind fun _ _ => .refl _
  | _ => exact .refl _

theorem byteAfter_extends {n n' : Nat} (hn : n ≤ n') (loc : Loc) (shown : Event → Bool) :
    Lib.Extends (M.byteAfter n loc shown) ((M.relower lower).byteAfter n' loc shown) := by
  unfold byteAfter
  refine (initialAt_extends h loc).bind fun initial _ => ?_
  cases initial with
  | none => exact .refl _
  | some initial =>
      refine Lib.Extends.bind (Lib.Extends.foldlM (fun e _ t => ?_) initial) fun _ _ => .refl _
      refine .ite (fun _ => .refl _) fun _ => ?_
      refine (writtenByte_extends h e.action loc.off).bind fun v _ => ?_
      cases v with
      | none => exact .refl _
      | some v => exact (writeGuard_extends h hn loc e).bind fun _ _ => .refl _

theorem read_extends {n n' : Nat} (hn : n ≤ n') (loc : Loc) (atBlock : Nat) (atIdx : Int) :
    Lib.Extends (M.read n loc atBlock atIdx) ((M.relower lower).read n' loc atBlock atIdx) := by
  unfold Memory.read
  exact (Lib.Extends.mapM fun i _ => byteAfter_extends h hn _ _).bind fun _ _ => .refl _

end Memory

namespace ForwardContext

variable {F : ForwardContext maps} {w : Walk maps}

theorem readsWith_extends {lower lower' : Expr → Except LowerError ZBv}
    (h : ∀ e, Lib.Extends (lower e) (lower' e)) : (F.readsWith w lower).Extends (F.readsWith w lower') where
  readPkt e := by
    unfold readsWith
    cases e with
    | pktVal block idx off varOff size =>
        dsimp only
        refine .ite (fun _ => .ite (fun _ => .refl _) fun _ => ?_) fun _ => .refl _
        exact Memory.read_extends (M := F.mem w lower) h le_rfl _ _ _
    | _ => exact .refl _
  readMap e := by
    unfold readsWith
    cases e with
    | mapVal block idx mapId mapKey mapKeyId off varOff size =>
        refine .ite (fun _ => ?_) fun _ => .refl _
        exact Memory.read_extends (M := F.mem w lower) h le_rfl _ _ _
    | _ => exact .refl _
  readBss e := by
    unfold readsWith
    cases e with
    | bssVal block idx key off varOff size =>
        dsimp only
        refine .ite (fun _ => .ite (fun _ => .refl _) fun _ => ?_) fun _ => .refl _
        exact Memory.read_extends (M := F.mem w lower) h le_rfl _ _ _
    | _ => exact .refl _
  readPresent mapId key blk idx := by
    unfold readsWith
    dsimp only
    refine .ite (fun _ => ?_) fun _ => .refl _
    cases idx.bind F.lookupBlock with
    | none => exact Memory.presentFuel_extends (M := F.mem w lower) h le_rfl _ _ _ _
    | some b => exact Memory.presentFuel_extends (M := F.mem w lower) h le_rfl _ _ _ _
  guardOf := rfl
  base := rfl

/-- A deeper limit changes no answer. -/
theorem reads_extends (fuel : Nat) : (F.reads w fuel).Extends (F.reads w (fuel + 1)) := by
  induction fuel with
  | zero => exact readsWith_extends fun e => .throw _ _
  | succ fuel ih => exact readsWith_extends (exprToZ3_extends ih none F.initSt)

end ForwardContext

end Hornet
