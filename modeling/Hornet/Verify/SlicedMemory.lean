import Hornet.Verify.Slicing

/-!
Reads that are resolved from the list of writes. A byte of a region depends on the writes
to that region only, so how the operands of other writes are lowered does not matter.
-/

namespace Hornet

open Smt Lib

variable {maps : List MapInfo}

/-- The region that a location lies in. -/
def Loc.stateRegion (loc : Loc) : StateRegion :=
  match loc.region with
  | .PKT => .pkt
  | .MAP => .map loc.mapId
  | .BSS => .bss loc.bssKey
  | .CTX => .rxIndex

/-- A write is to the region that its own location is in. -/
theorem writeRegion_of_region {w : Action} {region : WriteRegion} (h : w.region = some region) :
    w.writeRegion = some (Loc.stateRegion ⟨region, 0, 0, w.mapId, none, w.bssKey⟩) := by
  cases w with
  | pktWrite | mapWrite | mapAtomicAdd | mapUpdate | bssWrite | bssAtomicAdd | ctxWrite =>
      obtain rfl := Option.some.inj h
      rfl
  | _ => cases h

/-- A write that may touch a location is to the same memory. -/
theorem region_of_mayAlias {loc : Loc} {w : Action} (h : mayAlias loc w = true) :
    w.region = some loc.region ∧ (loc.region = .MAP → loc.mapId = w.mapId) ∧
      (loc.region = .BSS → ∀ a b, loc.bssKey = some a → w.bssKey = some b → a = b) := by
  have hkept : ∀ {c rest : Bool}, (if c then false else rest) = true → c = false ∧ rest = true :=
    fun {c rest} hc => by cases c <;> simp_all
  unfold mayAlias at h
  split at h
  · cases h
  rename_i hregion
  obtain ⟨hmap, h⟩ := hkept h
  obtain ⟨-, h⟩ := hkept h
  obtain ⟨hbss, -⟩ := hkept h
  refine ⟨not_not.mp hregion, fun hloc => ?_, fun hloc a b ha hb => ?_⟩
  · simpa [hloc] using hmap
  · simpa [hloc, ha, hb] using hbss

theorem writeRegion_of_mayAlias {loc : Loc} {w : Action} (h : mayAlias loc w = true)
    (hkeyed : w.writeRegion ≠ some (.bss none)) (hloc : loc.stateRegion ≠ .bss none) :
    w.writeRegion = some loc.stateRegion := by
  obtain ⟨hregion, hmap, hbss⟩ := region_of_mayAlias h
  have hwrite := writeRegion_of_region hregion
  obtain ⟨region, off, size, mapId, mapKey, bssKey⟩ := loc
  cases region with
  | PKT | CTX => exact hwrite
  | MAP =>
      obtain rfl := hmap rfl
      exact hwrite
  | BSS =>
      rw [hwrite] at hkeyed ⊢
      obtain ⟨key, hkey⟩ := Option.ne_none_iff_exists'.mp fun hnone => hloc (congrArg _ hnone)
      obtain ⟨key', hkey'⟩ := Option.ne_none_iff_exists'.mp
        fun hnone => hkeyed (congrArg (some ∘ StateRegion.bss) hnone)
      obtain rfl := hbss rfl key key' hkey hkey'
      exact congrArg (some ∘ StateRegion.bss) (hkey'.trans hkey.symm)

namespace Memory

variable (M : Memory maps) (lower : Expr → Except LowerError ZBv)

/-- The same memory with another way to lower values. -/
def relower : Memory maps := { M with lower := lower }

section Relower

@[simp] theorem relower_st : (M.relower lower).st = M.st := rfl

@[simp] theorem relower_reachOf : (M.relower lower).reachOf = M.reachOf := rfl

@[simp] theorem relower_ranBefore : (M.relower lower).ranBefore = M.ranBefore := rfl

@[simp] theorem relower_visible : (M.relower lower).visible = M.visible := rfl

@[simp] theorem relower_writes : (M.relower lower).writes = M.writes := rfl

@[simp] theorem relower_presenceWrites : (M.relower lower).presenceWrites = M.presenceWrites := rfl

end Relower

/-- The memory and `lower` agree on the operands of the writes to `rel` that may have run. -/
structure LowersAlike (rel : StateRegion → Prop) : Prop where
  operands : ∀ e ∈ M.blocks.flatMap (·.actions), M.reachOf e.block ≠ .ff → ∀ r,
    e.action.writeRegion = some r → rel r →
    ∀ x, some x ∈ [e.action.value, e.action.mapKey, e.action.old] → M.lower x = lower x
  keyed : ∀ e ∈ M.blocks.flatMap (·.actions), e.action.writeRegion ≠ some (.bss none)

variable {M lower} {rel : StateRegion → Prop}

theorem lowerSome_alike {o : Option Expr} (h : ∀ x, o = some x → M.lower x = lower x) :
    M.lowerSome o = (M.relower lower).lowerSome o := by
  cases o with
  | none => rfl
  | some x => exact h x rfl

theorem key_alike (mapId : Nat) {o : Option Expr} (h : ∀ x, o = some x → M.lower x = lower x) :
    M.key mapId o = (M.relower lower).key mapId o := by
  simp only [key, lowerSome_alike h]

theorem reachOf_of_visible {e : Event} {atBlock : Nat} {atIdx : Int}
    (h : M.visible e atBlock atIdx = true) : M.reachOf e.block ≠ .ff := by
  simp only [visible, ranBefore, Bool.and_eq_true, decide_eq_true_eq] at h
  exact h.1.2

theorem reachOf_of_ranBefore {e : Event} {atBlock : Nat} (h : M.ranBefore e atBlock = true) :
    M.reachOf e.block ≠ .ff := by
  simp only [ranBefore, Bool.and_eq_true, decide_eq_true_eq] at h
  exact h.2

/-- A write to a map that is kept, as far as the key it is made at. -/
theorem appliesWith_alike {present present' : (mapId : Nat) → ZTerm (.bv (keyBits maps mapId)) →
      Option Nat → Option Int → Except LowerError (ZTerm .bool)} {e : Event}
    (hkey : ∀ x, e.action.mapKey = some x → M.lower x = lower x)
    (hpresent : ∀ mapId, e.action.mapId = some mapId → present mapId = present' mapId) :
    M.appliesWith present e = (M.relower lower).appliesWith present' e := by
  unfold appliesWith
  split
  · rename_i mapId mapKey value flags size haction
    rw [haction] at hkey hpresent
    have hlowered : M.key mapId mapKey = (M.relower lower).key mapId mapKey := key_alike mapId hkey
    split
    · rfl
    · simp only [hlowered, hpresent mapId rfl]
  · rfl

theorem writeRegion_of_mapId {a : Action} {r : StateRegion} {mapId : Nat}
    (hr : a.writeRegion = some r) (hmap : a.mapId = some mapId) : r = .map (some mapId) := by
  cases a with
  | mapWrite | mapAtomicAdd | mapUpdate | mapDelete =>
      obtain rfl := Option.some.inj hr
      exact congrArg StateRegion.map hmap
  | mapLookup => cases hr
  | _ => cases hmap

theorem writeRegion_of_presence {a : Action} {mapId : Nat} (hpresence : a.presence.isSome = true)
    (hmap : a.mapId = some mapId) : a.writeRegion = some (.map (some mapId)) := by
  cases a with
  | mapUpdate | mapDelete => exact congrArg (some ∘ StateRegion.map) hmap
  | _ => cases hpresence

/-- The presence of a key depends on the updates and deletions of its map only. -/
theorem presentFuel_alike (h : M.LowersAlike lower rel) (fuel : Nat) {mapId : Nat}
    (hrel : rel (.map (some mapId))) :
    M.presentFuel fuel mapId = (M.relower lower).presentFuel fuel mapId := by
  induction fuel generalizing mapId with
  | zero => rfl
  | succ fuel ih =>
      funext keyZ3 atBlock atIdx
      cases atBlock with
      | none => rfl
      | some atBlock =>
          simp only [presentFuel, relower_st, relower_reachOf, relower_ranBefore, relower_visible,
            relower_presenceWrites]
          apply foldlM_congr
          intro p e he
          obtain ⟨he, hpresence⟩ := List.mem_filter.mp he
          refine ite_congr rfl (fun _ => rfl) fun hskip => ?_
          simp only [ne_eq, Bool.or_eq_true, decide_eq_true_eq, not_or, not_not,
            Bool.not_eq_true', Bool.not_eq_false] at hskip
          obtain ⟨hmap, hshown⟩ := hskip
          have hreach : M.reachOf e.block ≠ .ff := by
            cases atIdx with
            | none => exact reachOf_of_ranBefore hshown
            | some i => exact reachOf_of_visible hshown
          have hlower := h.operands e he hreach _ (writeRegion_of_presence hpresence hmap) hrel
          have hkey : ∀ x, e.action.mapKey = some x → M.lower x = lower x :=
            fun x hx => hlower x (by simp [hx])
          have happlies : M.appliesWith (M.presentFuel fuel) e =
              (M.relower lower).appliesWith ((M.relower lower).presentFuel fuel) e := by
            refine appliesWith_alike hkey fun mapId' hmap' => ?_
            rw [hmap] at hmap'
            exact ih (Option.some.inj hmap' ▸ hrel)
          rw [happlies]
          cases hmapKey : e.action.mapKey with
          | none => rfl
          | some k =>
              have hlowered : M.key mapId (some k) = (M.relower lower).key mapId (some k) :=
                key_alike mapId fun x hx => hkey x (hmapKey.trans hx)
              simp only [hlowered]

theorem writtenByte_alike {a : Action}
    (h : ∀ x, some x ∈ [a.value, a.mapKey, a.old] → M.lower x = lower x) (offset : Int) :
    M.writtenByte a offset = (M.relower lower).writtenByte a offset := by
  have hvalue : M.lowerSome a.value = (M.relower lower).lowerSome a.value :=
    lowerSome_alike fun x hx => h x (by simp [hx])
  unfold writtenByte
  rw [hvalue]
  cases hold : a.old with
  | none => rfl
  | some old =>
      have hlowered : M.lower old = (M.relower lower).lower old := h old (by simp [hold])
      simp only [hlowered]

theorem writeGuard_alike (h : M.LowersAlike lower rel) (fuel : Nat) {loc : Loc} {e : Event}
    (he : e ∈ M.blocks.flatMap (·.actions)) (hreach : M.reachOf e.block ≠ .ff)
    (hregion : e.action.writeRegion = some loc.stateRegion) (hrel : rel loc.stateRegion)
    (hkey : ∀ x, loc.mapKey = some x → M.lower x = lower x) :
    M.writeGuard fuel loc e = (M.relower lower).writeGuard fuel loc e := by
  have hlower := h.operands e he hreach _ hregion hrel
  have hmapKey : ∀ x, e.action.mapKey = some x → M.lower x = lower x :=
    fun x hx => hlower x (by simp [hx])
  have happlies : M.appliesWith (M.presentFuel fuel) e =
      (M.relower lower).appliesWith ((M.relower lower).presentFuel fuel) e := by
    refine appliesWith_alike hmapKey fun mapId hmap => ?_
    exact presentFuel_alike h fuel (writeRegion_of_mapId hregion hmap ▸ hrel)
  unfold writeGuard
  rw [happlies]
  cases hmap : loc.mapId with
  | none => rfl
  | some mapId =>
      simp only [key_alike mapId hkey, key_alike mapId hmapKey]
      rfl

/-- A byte depends on the writes to its region. -/
theorem byteAfter_alike (h : M.LowersAlike lower rel) (fuel : Nat) {loc : Loc}
    {shown : Event → Bool} (hshown : ∀ e, shown e = true → M.reachOf e.block ≠ .ff)
    (hrel : rel loc.stateRegion) (hkeyed : loc.stateRegion ≠ .bss none)
    (hkey : ∀ x, loc.mapKey = some x → M.lower x = lower x) :
    M.byteAfter fuel loc shown = (M.relower lower).byteAfter fuel loc shown := by
  have hinitial : M.initialAt loc = (M.relower lower).initialAt loc := by
    unfold initialAt
    split
    · rfl
    · split
      · rfl
      · rename_i mapId hmap
        simp only [key_alike mapId hkey, relower_st]
    · rfl
    · rfl
  simp only [byteAfter, hinitial, relower_writes]
  congr
  funext initial
  cases initial with
  | none => rfl
  | some initial =>
      dsimp only
      congr 1
      apply foldlM_congr
      intro t e he
      obtain ⟨he, -⟩ := List.mem_filter.mp he
      split
      · rfl
      · rename_i hskip
        simp only [Bool.or_eq_true, Bool.not_eq_true', not_or, Bool.not_eq_false] at hskip
        obtain ⟨hshow, halias⟩ := hskip
        have hreach := hshown e hshow
        have hregion := writeRegion_of_mayAlias halias (h.keyed e he) hkeyed
        rw [writtenByte_alike (h.operands e he hreach _ hregion hrel),
          writeGuard_alike h fuel he hreach hregion hrel hkey]

theorem LowersAlike.read (h : M.LowersAlike lower rel) (fuel : Nat) (loc : Loc)
    (hrel : rel loc.stateRegion) (hkeyed : loc.stateRegion ≠ .bss none)
    (hkey : ∀ x, loc.mapKey = some x → M.lower x = lower x) (atBlock : Nat) (atIdx : Int) :
    M.read fuel loc atBlock atIdx = (M.relower lower).read fuel loc atBlock atIdx := by
  have hcell : ∀ i : Nat, M.byteAfter fuel { loc with off := loc.off + i, size := 1 }
      (M.visible · atBlock atIdx) =
        (M.relower lower).byteAfter fuel { loc with off := loc.off + i, size := 1 }
          (M.visible · atBlock atIdx) :=
    fun i => byteAfter_alike h fuel (fun _ => reachOf_of_visible) hrel hkeyed hkey
  simp only [Memory.read, hcell, relower_visible]

theorem LowersAlike.locByte (h : M.LowersAlike lower rel) (fuel : Nat) {loc : Loc}
    (hrel : rel loc.stateRegion) (hkeyed : loc.stateRegion ≠ .bss none)
    (hkey : ∀ x, loc.mapKey = some x → M.lower x = lower x) (atBlock : Nat) :
    M.locByte fuel loc atBlock = (M.relower lower).locByte fuel loc atBlock :=
  byteAfter_alike h fuel (fun _ => reachOf_of_ranBefore) hrel hkeyed hkey

end Memory

end Hornet
