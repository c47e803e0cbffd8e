import Hornet.Track.Contents
import Hornet.Track.Sized

/-!
The instructions that change packet, map or `.bss` memory: what the machine may make
of the memory, and what the tracker's actions make of it.
-/

namespace Hornet

open Smt

/-- What an instruction does to memory, in terms of the values that the tracker holds in
the registers. -/
inductive MemoryOp where
  | store (p : PTR Expr) (addr : Int) (size : Nat) (value : Option Expr)
  | atomicAdd (p : PTR Expr) (addr : Int) (size : Nat) (value : Option Expr)
  | mapUpdate (mapId : Nat) (key value : Expr) (flags : Option Int)
  | mapDelete (mapId : Nat) (key : Expr)
  /-- An update or a delete of which an operand is not known. -/
  | mapUnknown
  /-- A call of another BPF function. -/
  | call

/-- What the machine does to memory, with the values that it computes with itself: the place
of an access and what is written or added there, the entry of a map and its new value. -/
inductive MachineOp (maps : List MapInfo) where
  | store {n : Nat} (place : Place maps) (x : BitVec (n * 8))
  | atomicAdd {n : Nat} (place : Place maps) (x : BitVec (n * 8))
  | mapUpdate (mapId : Nat) (key : BitVec (keyBits maps mapId)) (value : BitVec (valBits maps mapId))
      (flags : Int)
  | mapDelete (mapId : Nat) (key : BitVec (keyBits maps mapId))
  /-- An update or a delete of any entry of any map. -/
  | mapUnknown
  /-- A call of a function that may write anywhere. -/
  | call

/-- What the machine can make of the memory `c`. -/
inductive MachineOp.Leaves {maps : List MapInfo} (c : Contents maps) :
    MachineOp maps → Contents maps → Prop
  | store {n : Nat} (place : Place maps) (x : BitVec (n * 8)) :
      Leaves c (.store place x) (c.write x place)
  | atomicAdd {n : Nat} (place : Place maps) (x : BitVec (n * 8)) :
      Leaves c (.atomicAdd place x) (c.write (c.read n place + x) place)
  | mapUpdate (mapId : Nat) (key : BitVec (keyBits maps mapId)) (value : BitVec (valBits maps mapId))
      (flags : Int) :
      Leaves c (.mapUpdate mapId key value flags) (c.update mapId key value (some flags) false)
  | mapDelete (mapId : Nat) (key : BitVec (keyBits maps mapId)) :
      Leaves c (.mapDelete mapId key) (c.delete mapId key)
  | mapUnknown {c' : Contents maps} (hpkt : c'.pkt = c.pkt) (hbss : c'.bss = c.bss) :
      Leaves c .mapUnknown c'
  | call (c' : Contents maps) : Leaves c .call c'

/-- The value that a store writes. -/
def storedValue (instr : Instr) (b : Block) : Option Expr :=
  if instr.opcodeClass = .ST then some (imm64 instr.imm) else b.reg instr.srcReg

/-- A pointer into the packet, a map value or a `.bss` symbol. -/
def PTR.isMemory (p : PTR Expr) : Bool :=
  p.ptrType = .PKT || p.ptrType = .MAP_VALUE || p.ptrType = .BSS

/-- A call of the helper `imm`. -/
def callsHelper (instr : Instr) (imm : Int) : Prop :=
  instr.isCall = true ∧ instr.srcReg = 0 ∧ instr.imm = imm

/-- The instruction at `idx` does `op` to memory, with the registers of `b`. -/
inductive Performs (maps : List MapInfo) (idx : Nat) (instr : Instr) (b : Block) : MemoryOp → Prop
  | store {p : PTR Expr} (hstore : instr.isStore = true) (hmode : instr.opcodeMode ≠ .ATOMIC)
      (hdst : b.reg instr.dstReg = some (.ptr p)) (hp : p.isMemory = true) :
      Performs maps idx instr b
        (.store p (p.off + instr.offset) (szMap instr.opcodeSz) (storedValue instr b))
  | atomicAdd {p : PTR Expr} (hstore : instr.isStore = true) (hmode : instr.opcodeMode = .ATOMIC)
      (hdst : b.reg instr.dstReg = some (.ptr p)) (hp : p.isMemory = true) :
      Performs maps idx instr b
        (.atomicAdd p (p.off + instr.offset) (szMap instr.opcodeSz) (storedValue instr b))
  | mapUpdate {map kp vp : PTR Expr} {mapId : Nat} {info : MapInfo} {key value : Obj} {b₁ b₂ : Block}
      (hcall : callsHelper instr 2) (hmap : mapArgument b 1 = some map)
      (hid : map.mapId = some mapId) (hinfo : maps[mapId]? = some info)
      (hkp : (b.reg 2).bind Expr.ptr? = some kp) (hkey : load idx b kp 0 info.keySize = .ok (key, b₁))
      (hvp : (b.reg 3).bind Expr.ptr? = some vp)
      (hvalue : load idx b₁ vp 0 info.valueSize = .ok (value, b₂)) :
      Performs maps idx instr b
        (.mapUpdate mapId key.val value.val ((b.reg 4).bind Expr.num?))
  | mapDelete {map kp : PTR Expr} {mapId : Nat} {info : MapInfo} {key : Obj} {b₁ : Block}
      (hcall : callsHelper instr 3) (hmap : mapArgument b 1 = some map)
      (hid : map.mapId = some mapId) (hinfo : maps[mapId]? = some info)
      (hkp : (b.reg 2).bind Expr.ptr? = some kp)
      (hkey : load idx b kp 0 info.keySize = .ok (key, b₁)) :
      Performs maps idx instr b (.mapDelete mapId key.val)
  | updateUnknown (hcall : callsHelper instr 2)
      (hnone : mapArgument b 1 = none ∨ (b.reg 2).bind Expr.ptr? = none ∨
        (b.reg 3).bind Expr.ptr? = none) :
      Performs maps idx instr b .mapUnknown
  | deleteUnknown (hcall : callsHelper instr 3)
      (hnone : mapArgument b 1 = none ∨ (b.reg 2).bind Expr.ptr? = none) :
      Performs maps idx instr b .mapUnknown
  | call (hcall : instr.isCall = true) (hsrc : instr.srcReg ≠ 0) : Performs maps idx instr b .call

section Machine

variable {maps : List MapInfo} (R : Option (Reads maps)) (blk : Option Nat) (st : Z3State maps)
  (m : ZModel)

/-- The places that an access of `n` bytes through `p` can go to: the machine's addresses
have 64 bits, and the kernel lets no access leave its map value, whose size has 32 bits. -/
inductive PointsTo (p : PTR Expr) (addr : Int) (n : Nat) : Place maps → Prop
  | pkt {vo : Option ZBv} (htype : p.ptrType = .PKT) (hvo : optToZ3 R blk st p.varOff = .ok vo) :
      PointsTo p addr n (.pkt (BitVec.ofInt PKT_ADDR_BITS (varDist m vo + addr)))
  | value {mapId off : Nat} {key : ZBv} {vo : Option ZBv} (htype : p.ptrType = .MAP_VALUE)
      (hmap : ∀ id, p.mapId = some id → mapId = id) (hkey : someToZ3 R blk st p.mapKey = .ok key)
      (hvo : optToZ3 R blk st p.varOff = .ok vo)
      (hoff : (off : Int) = (varDist m vo + addr) % 2 ^ 64) (hin : (off + n) * 8 ≤ valBits maps mapId)
      (hsize : valBits maps mapId < 2 ^ 35)
      (hentry : isIndexed maps mapId = true →
        inRange maps mapId ((resize key (keyBits maps mapId)).eval m) = true) :
      PointsTo p addr n (.value mapId ((resize key (keyBits maps mapId)).eval m) off)
  | bss {vo : Option ZBv} (htype : p.ptrType = .BSS) (hvo : optToZ3 R blk st p.varOff = .ok vo) :
      PointsTo p addr n (.bss p.bssIdx (BitVec.ofInt BSS_ADDR_BITS (varDist m vo + addr)))

/-- The operands that the tracker holds have, in the state in which the action is encoded,
the values that the machine computes with. Where the flags of an update are not known, the
outcome variable of its call says whether it takes effect. -/
inductive Matches (idx : Int) (c : Contents maps) : MemoryOp → MachineOp maps → Prop
  | store {p : PTR Expr} {addr : Int} {n : Nat} {value : Option Expr} {place : Place maps} {v : ZBv}
      {x : BitVec (n * 8)} (hp : PointsTo R blk st m p addr n place)
      (hv : someToZ3 R blk st value = .ok v) (hx : (resize v (n * 8)).eval m = x) :
      Matches idx c (.store p addr n value) (.store place x)
  | atomicAdd {p : PTR Expr} {addr : Int} {n : Nat} {value : Option Expr} {place : Place maps}
      {v : ZBv} {x : BitVec (n * 8)} (hp : PointsTo R blk st m p addr n place)
      (hv : someToZ3 R blk st value = .ok v) (hx : (resize v (n * 8)).eval m = x) :
      Matches idx c (.atomicAdd p addr n value) (.atomicAdd place x)
  | mapUpdate {mapId : Nat} {key value : Expr} {flags : Option Int} {f : Int} {k v : ZBv}
      {x : BitVec (keyBits maps mapId)} {y : BitVec (valBits maps mapId)}
      (hk : exprToZ3 R blk st key = .ok k) (hx : (resize k (keyBits maps mapId)).eval m = x)
      (hv : exprToZ3 R blk st value = .ok v) (hy : (resize v (valBits maps mapId)).eval m = y)
      (hknown : ∀ f', flags = some f' → f' = f)
      (houtcome : flags = none → m .bool (.updateApplies idx) =
        Contents.ruleApplies (some f) false (c.present mapId x)) :
      Matches idx c (.mapUpdate mapId key value flags) (.mapUpdate mapId x y f)
  | mapDelete {mapId : Nat} {key : Expr} {k : ZBv} {x : BitVec (keyBits maps mapId)}
      (hk : exprToZ3 R blk st key = .ok k) (hx : (resize k (keyBits maps mapId)).eval m = x) :
      Matches idx c (.mapDelete mapId key) (.mapDelete mapId x)
  | mapUnknown : Matches idx c .mapUnknown .mapUnknown
  | call : Matches idx c .call .call

/-- The encoding of an access to a value of `w` bits finds the byte `off`: the sum of the
offsets does not wrap around 2^64, or the shift of a variable offset loses what it wraps by. -/
def FindsByte (w : Nat) (vo : Option ZBv) (addr : Int) (off : Nat) : Prop :=
  match vo with
  | none => addr = off
  | some v => ((v.toNat m + addr) * 8) % 2 ^ w = off * 8

/-- An access lands where the encoding writes. -/
def Lands (p : PTR Expr) (addr : Int) : Place maps → Prop
  | .pkt _ => True
  | .value mapId _ off => ∀ vo, optToZ3 R blk st p.varOff = .ok vo →
      FindsByte m (valBits maps mapId) vo addr off
  | .bss key _ => key.isSome = true

/-- The condition on which the encoding accounts for what the machine does. -/
def MemoryOp.Accounted (c : Contents maps) : MemoryOp → MachineOp maps → Prop
  | .store p addr _ _, .store place x => Lands R blk st m p addr place ∨ c.write x place = c
  | .atomicAdd p addr _ _, .atomicAdd place x =>
      Lands R blk st m p addr place ∨ c.write (c.read _ place + x) place = c
  | .mapUpdate .., .mapUpdate mapId key _ flags =>
      isHashMap maps mapId = true ∨ isIndexed maps mapId = true ∨ c.present mapId key = true ∨
        Contents.ruleApplies (some flags) false (c.present mapId key) = false
  | .mapDelete .., .mapDelete mapId key =>
      isHashMap maps mapId = true ∨ isIndexed maps mapId = true ∨ c.present mapId key = false
  | _, _ => False

end Machine

section Steps

variable {P : Program} {blocks : List Block} {b b' : Block} {idx : Nat} {instr : Instr}

/-- The action that a store through `p` leaves. -/
def storeAction (p : PTR Expr) (addr : Int) (size : Nat) (value : Option Expr) : Action :=
  match p.ptrType with
  | .PKT => .pktWrite p.id addr p.varOff size value
  | .MAP_VALUE => .mapWrite p.mapId p.mapKey addr size value p.varOff
  | _ => .bssWrite p.bssIdx addr size value p.varOff

/-- The block has performed one more action. -/
def Emits (b b' : Block) (idx : Nat) (a : Action) : Prop :=
  b'.actions = b.actions ++ [⟨b.num, idx, a⟩]

theorem emits_store {p : PTR Expr} {offset : Int} {size : Nat} {value : Option Obj}
    (hp : p.isMemory = true) (h : store b p offset size value = .ok b') :
    Emits b b' b.idx (storeAction p (p.off + offset) size (value.map (·.val))) := by
  unfold store at h
  split at h
  · cases h
  · dsimp only at h
    unfold storeAction
    cases htype : p.ptrType <;> simp only [htype] at h <;> simp_all [PTR.isMemory]
    · cases h
      rfl
    · cases h
      rfl
    · cases h
      rfl

theorem load_block {p : PTR Expr} {offset : Int} {size : Nat} {o : Obj}
    (h : load idx b p offset size = .ok (o, b')) :
    b'.actions = b.actions ∧ b'.num = b.num ∧ b'.idx = b.idx ∧ b'.regs = b.regs := by
  unfold load at h
  split at h
  · cases h
  · dsimp only at h
    split at h
    · obtain ⟨e, -, hout⟩ := Lib.map_eq_ok.mp h
      cases hout
      exact ⟨rfl, rfl, rfl, rfl⟩
    · obtain ⟨o', -, hout⟩ := Lib.map_eq_ok.mp h
      cases hout
      exact ⟨rfl, rfl, rfl, rfl⟩
    · cases h
      exact ⟨rfl, rfl, rfl, rfl⟩
    · cases h
      exact ⟨rfl, rfl, rfl, rfl⟩
    · cases h
      exact ⟨rfl, rfl, rfl, rfl⟩
    · cases h
      exact ⟨rfl, rfl, rfl, rfl⟩
    · cases h

/-- An accepted atomic instruction on memory adds to a map value or a `.bss` symbol. -/
theorem emits_atomicMemory {p : PTR Expr} {size : Nat} {src : Option Obj}
    (h : atomicMemory idx b instr p size src = .ok b') :
    ∃ old, Emits b b' b.idx
      (if p.ptrType = .MAP_VALUE then
        .mapAtomicAdd p.mapId p.mapKey (p.off + instr.offset) size (src.map (·.val)) p.varOff old
      else .bssAtomicAdd p.bssIdx (p.off + instr.offset) size (src.map (·.val)) p.varOff old) := by
  obtain ⟨⟨old, b₁⟩, hload, h⟩ := Lib.bind_eq_ok.mp h
  obtain ⟨hactions, hnum, hidx, -⟩ := load_block hload
  dsimp only at h
  split at h
  · cases h
  · cases h
    refine ⟨some old.val, ?_⟩
    unfold Emits
    split <;> split <;> simp [Block.setReg, Block.emit, hactions, hnum, hidx]

/-- The actions that an instruction leaves when the tracker accepts it. -/
inductive Records : MemoryOp → List Action → Prop
  | store (p : PTR Expr) (addr : Int) (size : Nat) (value : Option Expr) :
      Records (.store p addr size value) [storeAction p addr size value]
  | addValue {p : PTR Expr} (htype : p.ptrType = .MAP_VALUE) (addr : Int) (size : Nat)
      (value old : Option Expr) :
      Records (.atomicAdd p addr size value)
        [.mapAtomicAdd p.mapId p.mapKey addr size value p.varOff old]
  | addBss {p : PTR Expr} (htype : p.ptrType = .BSS) (addr : Int) (size : Nat)
      (value old : Option Expr) :
      Records (.atomicAdd p addr size value) [.bssAtomicAdd p.bssIdx addr size value p.varOff old]
  | mapUpdate (mapId : Nat) (key value : Expr) (flags : Option Int) (size : Nat) :
      Records (.mapUpdate mapId key value flags)
        [.mapUpdate (some mapId) (some key) (some value) flags size]
  | mapDelete (mapId : Nat) (key : Expr) :
      Records (.mapDelete mapId key) [.mapDelete (some mapId) (some key)]
  | mapUnknown : Records .mapUnknown []
  | call : Records .call []

theorem trackInstr_store (hinstr : P.instrs[idx]? = some instr) (hstore : instr.isStore = true)
    (h : trackInstr P blocks b idx = .ok b') :
    trackStore idx instr { b with idx := idx } = .ok b' := by
  have hclass : instr.opcodeClass = .ST ∨ instr.opcodeClass = .STX := by
    simpa [Instr.isStore] using hstore
  have halu : instr.isAlu = false := by rcases hclass with hc | hc <;> simp [Instr.isAlu, hc]
  have hload : instr.isLoad = false := by rcases hclass with hc | hc <;> simp [Instr.isLoad, hc]
  simpa [trackInstr, hinstr, halu, hload, hstore] using h

theorem trackInstr_call (hinstr : P.instrs[idx]? = some instr) (hcall : instr.isCall = true)
    (h : trackInstr P blocks b idx = .ok b') :
    trackCall P blocks idx instr { b with idx := idx } = .ok b' := by
  have hclass : instr.opcodeClass = .JMP ∨ instr.opcodeClass = .JMP32 := by
    simp only [Instr.isCall, Instr.isJump, Bool.and_eq_true, Bool.or_eq_true,
      decide_eq_true_eq] at hcall
    exact hcall.1
  have halu : instr.isAlu = false := by rcases hclass with hc | hc <;> simp [Instr.isAlu, hc]
  have hload : instr.isLoad = false := by rcases hclass with hc | hc <;> simp [Instr.isLoad, hc]
  have hstore : instr.isStore = false := by rcases hclass with hc | hc <;> simp [Instr.isStore, hc]
  simpa [trackInstr, hinstr, halu, hload, hstore, hcall] using h

/-- The call of a helper, whose argument registers are cleared afterwards. -/
theorem trackCall_helper {imm : Int} (hcall : callsHelper instr imm)
    (h : trackCall P blocks idx instr b = .ok b') :
    ∃ b₁, helperCall P blocks idx imm b = .ok b₁ ∧ b'.actions = b₁.actions := by
  obtain ⟨-, hsrc, rfl⟩ := hcall
  unfold trackCall at h
  rw [if_neg (not_not_intro hsrc)] at h
  obtain ⟨b₁, hhelper, h⟩ := Lib.bind_eq_ok.mp h
  refine ⟨b₁, hhelper, ?_⟩
  rw [← Except.ok.inj h]
  simp only [List.foldl_cons, List.foldl_nil, Block.setReg]

theorem mapInfo_ok {maps : List MapInfo} {mapId : Option Nat} {id : Nat} {info : MapInfo}
    (hid : mapId = some id) (hinfo : maps[id]? = some info) : mapInfo maps mapId = .ok info := by
  rw [hid, mapInfo, Option.bind_some, hinfo]
  rfl

theorem emits_mapUpdate {maps : List MapInfo} {map kp vp : PTR Expr} {mapId : Nat}
    {info : MapInfo} {key value : Obj} {b₁ b₂ : Block} (hmap : mapArgument b 1 = some map)
    (hid : map.mapId = some mapId) (hinfo : maps[mapId]? = some info)
    (hkp : (b.reg 2).bind Expr.ptr? = some kp) (hkey : load idx b kp 0 info.keySize = .ok (key, b₁))
    (hvp : (b.reg 3).bind Expr.ptr? = some vp)
    (hvalue : load idx b₁ vp 0 info.valueSize = .ok (value, b₂))
    (h : mapUpdate maps idx b = .ok b') :
    ∃ size, Emits b b' b.idx (.mapUpdate (some mapId) (some key.val) (some value.val)
      ((b.reg 4).bind Expr.num?) size) := by
  obtain ⟨hkeyActions, hkeyNum, hkeyIdx, hkeyRegs⟩ := load_block hkey
  obtain ⟨hactions, hnum, hidx, hregs⟩ := load_block hvalue
  unfold mapUpdate at h
  rw [hmap, hkp, hvp] at h
  obtain ⟨info', hinfo', h⟩ := Lib.bind_eq_ok.mp h
  cases (mapInfo_ok hid hinfo).symm.trans hinfo'
  obtain ⟨⟨key', b₁'⟩, hkey', h⟩ := Lib.bind_eq_ok.mp h
  cases hkey.symm.trans hkey'
  obtain ⟨⟨value', b₂'⟩, hvalue', h⟩ := Lib.bind_eq_ok.mp h
  cases hvalue.symm.trans hvalue'
  cases h
  refine ⟨info.valueSize, ?_⟩
  simp [Emits, Block.scalarResult, Block.setReg, Block.emit, Block.reg, hactions, hnum, hidx, hregs,
    hkeyActions, hkeyNum, hkeyIdx, hkeyRegs, hid]

theorem emits_mapDelete {maps : List MapInfo} {map kp : PTR Expr} {mapId : Nat}
    {info : MapInfo} {key : Obj} {b₁ : Block} (hmap : mapArgument b 1 = some map)
    (hid : map.mapId = some mapId) (hinfo : maps[mapId]? = some info)
    (hkp : (b.reg 2).bind Expr.ptr? = some kp) (hkey : load idx b kp 0 info.keySize = .ok (key, b₁))
    (h : mapDelete maps idx b = .ok b') :
    Emits b b' b.idx (.mapDelete (some mapId) (some key.val)) := by
  obtain ⟨hactions, hnum, hidx, -⟩ := load_block hkey
  unfold mapDelete at h
  rw [hmap, hkp] at h
  obtain ⟨info', hinfo', h⟩ := Lib.bind_eq_ok.mp h
  cases (mapInfo_ok hid hinfo).symm.trans hinfo'
  obtain ⟨⟨key', b₁'⟩, hkey', h⟩ := Lib.bind_eq_ok.mp h
  cases hkey.symm.trans hkey'
  cases h
  simp [Emits, Block.scalarResult, Block.setReg, Block.emit, hactions, hnum, hidx, hid]

theorem mapUpdate_unknown {maps : List MapInfo} (hnone : mapArgument b 1 = none ∨
    (b.reg 2).bind Expr.ptr? = none ∨ (b.reg 3).bind Expr.ptr? = none)
    (h : mapUpdate maps idx b = .ok b') : b' = b.scalarResult idx := by
  unfold mapUpdate at h
  split at h
  · rename_i hmap hkp hvp
    simp [hmap, hkp, hvp] at hnone
  · exact (Except.ok.inj h).symm

theorem mapDelete_unknown {maps : List MapInfo} (hnone : mapArgument b 1 = none ∨
    (b.reg 2).bind Expr.ptr? = none) (h : mapDelete maps idx b = .ok b') :
    b' = b.scalarResult idx := by
  unfold mapDelete at h
  split at h
  · rename_i hmap hkp
    simp [hmap, hkp] at hnone
  · exact (Except.ok.inj h).symm

theorem storedValue_eq (instr : Instr) (b : Block) (idx : Nat) :
    (if instr.opcodeClass = .ST then some (Obj.fresh idx (imm64 instr.imm))
      else b.regs instr.srcReg).map (·.val) = storedValue instr b := by
  unfold storedValue
  split <;> rfl

theorem records_store {op : MemoryOp} {p : PTR Expr} (hp : p.isMemory = true)
    (hdst : b.reg instr.dstReg = some (.ptr p)) (hop : op =
      (if instr.opcodeMode = .ATOMIC then
        .atomicAdd p (p.off + instr.offset) (szMap instr.opcodeSz) (storedValue instr b)
      else .store p (p.off + instr.offset) (szMap instr.opcodeSz) (storedValue instr b)))
    (h : trackStore idx instr b = .ok b') :
    ∃ a, Records op [a] ∧ Emits b b' b.idx a := by
  subst hop
  unfold trackStore at h
  rw [hdst] at h
  dsimp only at h
  split at h
  · cases h
  · cases h
  · rename_i hmode
    have hnot : instr.opcodeMode ≠ .ATOMIC := by simp [hmode]
    rw [if_neg hnot]
    have hemits := emits_store hp h
    rw [storedValue_eq] at hemits
    exact ⟨_, .store .., hemits⟩
  · rename_i hmode
    rw [if_pos hmode]
    split at h
    · cases h
    · split at h
      · rename_i hstk
        simp [PTR.isMemory, hstk] at hp
      · split at h
        · obtain ⟨old, hemits⟩ := emits_atomicMemory h
          rw [storedValue_eq] at hemits
          by_cases hvalue : p.ptrType = .MAP_VALUE
          · rw [if_pos hvalue] at hemits
            exact ⟨_, .addValue hvalue .., hemits⟩
          · rw [if_neg hvalue] at hemits
            have hbss : p.ptrType = .BSS := by simp_all
            exact ⟨_, .addBss hbss .., hemits⟩
        · cases h
  · cases h

/-- What an accepted instruction leaves in the actions of its block, which has noted the
index of the instruction. -/
theorem records_of_performs {op : MemoryOp} (hinstr : P.instrs[idx]? = some instr)
    (hop : Performs P.maps idx instr { b with idx := idx } op)
    (h : trackInstr P blocks b idx = .ok b') :
    ∃ as, Records op as ∧ b'.actions = b.actions ++ as.map fun a => ⟨b.num, idx, a⟩ := by
  have hone : ∀ {b₁ : Block}, b'.actions = b₁.actions →
      (∃ a, Records op [a] ∧ Emits { b with idx := idx } b₁ idx a) →
      ∃ as, Records op as ∧ b'.actions = b.actions ++ as.map fun a => ⟨b.num, idx, a⟩ :=
    fun hactions ⟨a, hrecords, hemits⟩ => ⟨[a], hrecords, hactions.trans hemits⟩
  have hnothing : Records op [] → b'.actions = b.actions →
      ∃ as, Records op as ∧ b'.actions = b.actions ++ as.map fun a => ⟨b.num, idx, a⟩ :=
    fun hrecords hactions => ⟨[], hrecords, by simp [hactions]⟩
  cases hop with
  | @store p hstore hmode hdst hp =>
      refine hone rfl (records_store hp hdst ?_ (trackInstr_store hinstr hstore h))
      rw [if_neg hmode]
  | @atomicAdd p hstore hmode hdst hp =>
      refine hone rfl (records_store hp hdst ?_ (trackInstr_store hinstr hstore h))
      rw [if_pos hmode]
  | mapUpdate hcall hmap hid hinfo hkp hkey hvp hvalue =>
      obtain ⟨b₁, hhelper, hactions⟩ := trackCall_helper hcall (trackInstr_call hinstr hcall.1 h)
      cases helperCall_step hhelper with
      | mapUpdate hstep =>
          obtain ⟨size, hemits⟩ := emits_mapUpdate hmap hid hinfo hkp hkey hvp hvalue hstep
          exact hone hactions ⟨_, .mapUpdate .., hemits⟩
      | named himm => exact absurd rfl himm.2.1
  | mapDelete hcall hmap hid hinfo hkp hkey =>
      obtain ⟨b₁, hhelper, hactions⟩ := trackCall_helper hcall (trackInstr_call hinstr hcall.1 h)
      cases helperCall_step hhelper with
      | mapDelete hstep =>
          exact hone hactions ⟨_, .mapDelete .., emits_mapDelete hmap hid hinfo hkp hkey hstep⟩
      | named himm => exact absurd rfl himm.2.2
  | updateUnknown hcall hnone =>
      obtain ⟨b₁, hhelper, hactions⟩ := trackCall_helper hcall (trackInstr_call hinstr hcall.1 h)
      cases helperCall_step hhelper with
      | mapUpdate hstep =>
          rw [mapUpdate_unknown hnone hstep] at hactions
          exact hnothing .mapUnknown hactions
      | named himm => exact absurd rfl himm.2.1
  | deleteUnknown hcall hnone =>
      obtain ⟨b₁, hhelper, hactions⟩ := trackCall_helper hcall (trackInstr_call hinstr hcall.1 h)
      cases helperCall_step hhelper with
      | mapDelete hstep =>
          rw [mapDelete_unknown hnone hstep] at hactions
          exact hnothing .mapUnknown hactions
      | named himm => exact absurd rfl himm.2.2
  | call hcall hsrc =>
      have hrun := trackInstr_call hinstr hcall h
      unfold trackCall at hrun
      rw [if_pos hsrc] at hrun
      cases hrun
      exact hnothing .call rfl

end Steps

end Hornet
