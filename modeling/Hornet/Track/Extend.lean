import Hornet.Lib.Extend
import Hornet.Track.Encode

/-!
Hooks that answer more.
-/

namespace Hornet

open Smt Lib

variable {maps : List MapInfo}

/-- Hooks that give the answers of others where these have one. -/
structure Reads.Extends (R R' : Reads maps) : Prop where
  readPkt : ∀ e, Lib.Extends (R.readPkt e) (R'.readPkt e)
  readMap : ∀ e, Lib.Extends (R.readMap e) (R'.readMap e)
  readBss : ∀ e, Lib.Extends (R.readBss e) (R'.readBss e)
  readPresent : ∀ mapId key blk idx,
    Lib.Extends (R.readPresent mapId key blk idx) (R'.readPresent mapId key blk idx)
  guardOf : R.guardOf = R'.guardOf
  base : R.base = R'.base

variable {R R' : Reads maps} {blk : Option Nat} {st : Z3State maps}

theorem containTerm_extends (h : R.Extends R') (mapId : Nat) (key : ZBv) (mapKeyId : Option Int)
    (result : Bool) : Lib.Extends (containTerm (some R) blk st mapId key mapKeyId result)
      (containTerm (some R') blk st mapId key mapKeyId result) := by
  unfold containTerm
  dsimp only
  refine .ite (fun _ => .refl _) fun _ => ?_
  exact (h.readPresent mapId _ blk mapKeyId).bind fun _ _ => .refl _

/-- A read takes what the hooks know, and else what the state holds. -/
theorem hookOr_extends {o o' : Except LowerError (Option ZBv)} {rest rest' : Except LowerError ZBv}
    (ho : Lib.Extends o o') (hrest : Lib.Extends rest rest') :
    Lib.Extends (do match ← o with | some t => pure t | none => rest)
      (do match ← o' with | some t => pure t | none => rest') := by
  refine ho.bind fun t _ => ?_
  cases t with
  | none => exact hrest
  | some t => exact .refl _

mutual

/-- What is lowered is lowered to the same term with more answers. -/
theorem exprToZ3_extends (h : R.Extends R') (blk : Option Nat) (st : Z3State maps) : (e : Expr) →
    Lib.Extends (exprToZ3 (some R) blk st e) (exprToZ3 (some R') blk st e)
  | .scalar .. | .ingressIfindex | .rxQueueIndex | .egressIfindex | .pktLen .. | .num .. | .ptr _ =>
      .refl _
  | .joinValue blockIdx regNum values edges => by
      simp only [exprToZ3]
      exact (phiArms_extends h values edges).bind fun _ _ => .refl _
  | .funcRetval ⟨size, idx, func, block, mapId, mapKey, mapKeyId, fallback, redirects⟩ => by
      unfold exprToZ3
      dsimp only
      refine .ite (fun _ => ?_) fun _ => .refl _
      cases mapId with
      | none => exact .refl _
      | some mapId =>
          cases mapKey with
          | none => exact .refl _
          | some k =>
              refine (exprToZ3_extends h blk st k).bind fun key _ => ?_
              exact (containTerm_extends h mapId key _ _).bind fun _ _ => .refl _
  | .pktVal block idx off varOff size => by
      simp only [exprToZ3]
      refine hookOr_extends (h.readPkt _) ?_
      exact (optToZ3_extends h blk st varOff).bind fun _ _ => .refl _
  | .mapVal block idx mapId mapKey mapKeyId off varOff size => by
      simp only [exprToZ3]
      refine hookOr_extends (h.readMap _) ?_
      cases mapId with
      | none => exact .refl _
      | some mapId =>
          refine (someToZ3_extends h blk st mapKey).bind fun _ _ => ?_
          exact (optToZ3_extends h blk st varOff).bind fun _ _ => .refl _
  | .bssVal block idx bssKey off varOff size => by
      simp only [exprToZ3]
      refine hookOr_extends (h.readBss _) ?_
      exact (optToZ3_extends h blk st varOff).bind fun _ _ => .refl _
  | .rodataVal data off varOff size => by
      simp only [exprToZ3]
      exact (optToZ3_extends h blk st varOff).bind fun _ _ => .refl _
  | .lookupHit none _ _ => .refl _
  | .lookupHit (some _) none _ => .refl _
  | .lookupHit (some mapId) (some k) mapKeyId => by
      unfold exprToZ3
      dsimp only
      refine (exprToZ3_extends h blk st k).bind fun key _ => ?_
      exact (containTerm_extends h mapId key _ _).bind fun _ _ => .refl _
  | .byteSeq chunks size off => by
      simp only [exprToZ3]
      exact (chunksToZ3_extends h blk st chunks).bind fun _ _ => .refl _
  | .unary op dst opcodeS imm size alu64 => by
      simp only [exprToZ3]
      exact (someToZ3_extends h blk st dst).bind fun _ _ => .refl _
  | .binary op dst src offset size idx => by
      simp only [exprToZ3]
      refine (someToZ3_extends h blk st dst).bind fun _ _ => ?_
      exact (someToZ3_extends h blk st src).bind fun _ _ => .refl _

theorem optToZ3_extends (h : R.Extends R') (blk : Option Nat) (st : Z3State maps) :
    (e : Option Expr) → Lib.Extends (optToZ3 (some R) blk st e) (optToZ3 (some R') blk st e)
  | none => .refl _
  | some e => by
      simp only [optToZ3]
      exact (exprToZ3_extends h blk st e).bind fun _ _ => .refl _

theorem someToZ3_extends (h : R.Extends R') (blk : Option Nat) (st : Z3State maps) :
    (e : Option Expr) → Lib.Extends (someToZ3 (some R) blk st e) (someToZ3 (some R') blk st e)
  | none => .refl _
  | some e => exprToZ3_extends h blk st e

theorem chunksToZ3_extends (h : R.Extends R') (blk : Option Nat) (st : Z3State maps) :
    (cs : List (Option Expr)) → Lib.Extends (chunksToZ3 (some R) blk st cs) (chunksToZ3 (some R') blk st cs)
  | [] => .refl _
  | none :: cs => by
      simp only [chunksToZ3]
      exact (chunksToZ3_extends h blk st cs).bind fun _ _ => .refl _
  | some c :: cs => by
      simp only [chunksToZ3]
      refine (exprToZ3_extends h blk st c).bind fun _ _ => ?_
      exact (chunksToZ3_extends h blk st cs).bind fun _ _ => .refl _

theorem phiArms_extends (h : R.Extends R') : (vs : List (Option Expr)) → (ess : List (List Edge)) →
    Lib.Extends (phiArms R vs ess) (phiArms R' vs ess)
  | [], _ => .refl _
  | _ :: _, [] => .refl _
  | v :: vs, es :: ess => by
      simp only [phiArms, h.guardOf, h.base]
      refine .ite (fun _ => phiArms_extends h vs ess) fun _ => ?_
      refine (someToZ3_extends h none R'.base v).bind fun _ _ => ?_
      exact (phiArms_extends h vs ess).bind fun _ _ => .refl _

end

end Hornet
