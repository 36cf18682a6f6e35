import CoreWar.Proofs.AddressMaps
import CoreWar.Proofs.Bounds

namespace CoreWar

def remainder? (dividend divisor : Int) : Option Int :=
  if divisor = 0 then none else some (dividend % divisor)

/-- The sum, unless it is too large for a signed word. -/
def wordSum? (m n : Nat) : Option Nat :=
  if (m + n : Int) ≤ Int64.maxValue.toInt then some (m + n) else none

def divide? (lhs rhs : Int64) : Option (Int64 × Int64) :=
  if rhs = 0 then none else some (lhs / rhs, lhs % rhs)

namespace Operator

def floorDiv? (lhs rhs : Int64) : Option Int64 := do
  let (quotient, rest) ← divide? lhs rhs
  return if rest ≠ 0 ∧ (decide (lhs < 0) != decide (rhs < 0)) then quotient - 1 else quotient

/-- A pair without a result is no reason to give up; a division by zero is. -/
def result? (op : Operator) (lhs rhs : Int64) : Option (Option Int64) :=
  match op with
  | add | sub | mul => some (op.apply lhs rhs)
  | div => if rhs = 0 then some none else (floorDiv? lhs rhs).map some
  | mod => if rhs = 0 then some none else (divide? lhs rhs).map fun result => some result.2

def applyAll? (op : Operator) : List (Int64 × Int64) → Option (List Int64 × Bool)
  | [] => some ([], true)
  | (lhs, rhs) :: pairs => do
    match ← op.result? lhs rhs with
    | none => return ([], false)
    | some value =>
      let (values, complete) ← op.applyAll? pairs
      return (value :: values, complete)

theorem result?_eq (op : Operator) (lhs rhs : Int64) :
    op.result? lhs rhs = some (op.apply lhs rhs) := by
  cases op with
  | add | sub | mul => rfl
  | div | mod =>
    by_cases h : rhs = 0
    · simp [result?, apply, h]
    · simp [result?, apply, floorDiv?, floorDiv, divide?, h]

theorem applyAll?_eq (op : Operator) (pairs : List (Int64 × Int64)) :
    op.applyAll? pairs = some (op.applyAll pairs) := by
  induction pairs with
  | nil => rfl
  | cons pair pairs ih =>
    simp only [applyAll?, applyAll, result?_eq, ih, Option.bind_eq_bind, Option.bind_some]
    cases op.apply pair.1 pair.2 <;> rfl

end Operator

namespace Pointer

def inRing (size address : Nat) : Pointer := ⟨address, size⟩

@[simp] theorem inRing_address (size address : Nat) : (inRing size address).address = address := rfl

/-- `Pointer.add` with its sum and its remainder watched. -/
def add? (pointer : Pointer) (offset : Nat) : Option Pointer := do
  let sum ← wordSum? pointer.address offset
  let rest ← remainder? sum (Int64.ofNat pointer.size).toInt
  return ⟨rest.toNat, pointer.size⟩

end Pointer

namespace Core

def cell? (core : Core) (pointer : Pointer) : Option Instruction := core.cells[pointer.address]?

def store? (core : Core) (pointer : Pointer) (insn : Instruction) : Option Core :=
  if pointer.address < core.size then some (core.store pointer.address insn) else none

def pointer? (core : Core) (address : Int64) : Option Pointer := do
  let rest ← remainder? address.toInt (Int64.ofNat core.size).toInt
  return ⟨rest.toNat, core.size⟩

def offset? (core : Core) (window : Window) (value : Int64) : Option Nat := do
  let limit := core.distance window
  let rest ← remainder? value.toInt (Int64.ofNat limit).toInt
  if limit / 2 < rest.toNat then
    let sum ← wordSum? rest.toNat core.size
    if limit ≤ sum then some (sum - limit) else none
  else
    some rest.toNat

def bump? (core : Core) (pointer : Pointer) (delta : Int64) : Option Core := do
  let cell ← core.cell? pointer
  let value ← remainder? (cell.b.value + delta).toInt (Int64.ofNat core.size).toInt
  core.store? pointer (Field.b.set (Int64.ofInt value) cell)

def follow? (core : Core) (window : Window) (pc : Pointer) (offset : Nat) : Option Nat := do
  let cell ← core.cell? (← pc.add? offset)
  core.offset? window (Int64.ofNat offset + cell.b.value)

def followBoth? (core : Core) (pc : Pointer) (value : Int64) : Option (Nat × Nat) := do
  let read ← core.follow? .read pc (← core.offset? .read value)
  let write ← core.follow? .write pc (← core.offset? .write value)
  return (read, write)

def pointerCell? (core : Core) (pc : Pointer) (value : Int64) : Option Pointer := do
  pc.add? (← core.offset? .write value)

def targetAt? (core : Core) (pc : Pointer) (offsets : Nat × Nat) : Option (Target Pointer) := do
  let read ← pc.add? offsets.1
  let insn ← core.cell? read
  let write ← pc.add? offsets.2
  return ⟨insn, read, write⟩

def resolve? (core : Core) (pc : Pointer) (field : Field) : Option (Target Pointer × Core) := do
  let insn ← core.cell? pc
  let ⟨mode, value⟩ := field.operand insn
  match mode with
  | .immediate =>
    let target ← core.targetAt? pc (0, 0)
    return (target, core)
  | .direct =>
    let read ← core.offset? .read value
    let write ← core.offset? .write value
    let target ← core.targetAt? pc (read, write)
    return (target, core)
  | .indirect =>
    let offsets ← core.followBoth? pc value
    let target ← core.targetAt? pc offsets
    return (target, core)
  | .preDecrement =>
    let core ← core.bump? (← core.pointerCell? pc value) (-1)
    let offsets ← core.followBoth? pc value
    let target ← core.targetAt? pc offsets
    return (target, core)
  | .postIncrement =>
    let offsets ← core.followBoth? pc value
    let core ← core.bump? (← core.pointerCell? pc value) 1
    let target ← core.targetAt? pc offsets
    return (target, core)

def decode? (core : Core) (pc : Pointer) : Option (Decoded Pointer × Core) := do
  let insn ← core.cell? pc
  let (a, core) ← core.resolve? pc .a
  let (b, core) ← core.resolve? pc .b
  return (⟨pc, insn, a, b⟩, core)

def writeTarget? (core : Core) (d : Decoded Pointer) (values : List Int64) : Option Core := do
  let cell ← core.cell? d.b.write
  core.store? d.b.write (d.insn.modifier.target.write values cell)

end Core

namespace Decoded

def next? (d : Decoded Pointer) : Option (Update Pointer) := (d.pc.add? 1).map .continueAt

def jumpIf? (d : Decoded Pointer) (taken : Bool) : Option (Update Pointer) :=
  if taken then some (.continueAt d.a.read) else d.next?

def skipIf? (d : Decoded Pointer) (skipped : Bool) : Option (Update Pointer) :=
  if skipped then (d.pc.add? 2).map .continueAt else d.next?

def compare? (d : Decoded Pointer) : Option (Update Pointer) :=
  d.skipIf? <|
    if d.insn.modifier = .i then d.a.insn = d.b.insn
    else (d.source.zip d.target).all fun (a, b) => a = b

end Decoded

namespace Core

def move? (core : Core) (d : Decoded Pointer) : Option (Update Pointer × Core) := do
  let update ← d.next?
  let core ←
    if d.insn.modifier = .i then core.store? d.b.write d.a.insn else core.writeTarget? d d.source
  return (update, core)

def compute? (core : Core) (d : Decoded Pointer) (op : Operator) :
    Option (Update Pointer × Core) := do
  let (values, complete) ← op.applyAll? (d.target.zip d.source)
  let update ← if complete then d.next? else some .halt
  let core ← core.writeTarget? d values
  return (update, core)

def decrementJump? (core : Core) (d : Decoded Pointer) : Option (Update Pointer × Core) := do
  let values := d.target.map (· - 1)
  let update ← d.jumpIf? (values.all (· ≠ 0))
  let core ← core.writeTarget? d values
  return (update, core)

def act? (core : Core) (d : Decoded Pointer) : Option (Update Pointer × Core) :=
  let unchanged (update : Update Pointer) : Update Pointer × Core := (update, core)
  match d.insn.opcode with
  | .dat => some (.halt, core)
  | .mov => core.move? d
  | .add => core.compute? d .add
  | .sub => core.compute? d .sub
  | .mul => core.compute? d .mul
  | .div => core.compute? d .div
  | .mod => core.compute? d .mod
  | .jmp => some (.continueAt d.a.read, core)
  | .jmz => (d.jumpIf? (d.target.all (· = 0))).map unchanged
  | .jmn => (d.jumpIf? (d.target.all (· ≠ 0))).map unchanged
  | .djn => core.decrementJump? d
  | .cmp => d.compare?.map unchanged
  | .slt => (d.skipIf? ((d.source.zip d.target).all fun (a, b) => a < b)).map unchanged
  | .spl => (d.pc.add? 1).map fun next => (⟨some next, some d.a.write⟩, core)

def execute? (core : Core) (pc : Pointer) : Option (Update Pointer × Core) := do
  let (d, core) ← core.decode? pc
  core.act? d

end Core

/-- A pointer goes on as the core that it was made for does. -/
theorem Pointer.add_inRing (core : Core) (address offset : Nat) :
    (inRing core.size address).add offset = inRing core.size (core.advance address offset) := rfl

theorem wordSum?_eq {m n : Nat} (hm : m < Core.maxSize) (hn : n ≤ Core.maxSize) :
    wordSum? m n = some (m + n) := by
  have hmax : Int64.maxValue.toInt = 2 * Core.maxSize - 1 := by decide
  exact if_pos (by omega)

section

variable {core : Core} {size pc : Nat} {d : Decoded}

structure Core.SoundRing (size : Nat) (core : Core) : Prop where
  sound : core.Sound
  size_eq : core.size = size

namespace Core.SoundRing

theorem of_shape_eq {other : Core} (h : core.SoundRing size) (hs : other.shape = core.shape) :
    other.SoundRing size :=
  ⟨h.sound.of_shape_eq hs, (size_eq_of_shape_eq hs).trans h.size_eq⟩

theorem size_pos (h : core.SoundRing size) : 0 < size := h.size_eq ▸ h.sound.size_pos

theorem size_le (h : core.SoundRing size) : size ≤ maxSize := h.size_eq ▸ h.sound.size_le

theorem offset_lt (h : core.SoundRing size) (window : Window) (value : Int64) :
    core.offset window value < size := h.size_eq ▸ Core.offset_lt h.sound window value

theorem advance_lt (h : core.SoundRing size) (address offset : Nat) :
    core.advance address offset < size := h.size_eq ▸ Core.advance_lt h.sound.size_pos _ _

theorem add_eq (h : core.SoundRing size) (address offset : Nat) :
    (Pointer.inRing size address).add offset = .inRing size (core.advance address offset) := by
  rw [← h.size_eq]
  exact Pointer.add_inRing core address offset

theorem pointer_eq (h : core.SoundRing size) (address : Int64) :
    core.pointer address = .inRing size (core.wrap address) := by
  rw [pointer, h.size_eq]
  rfl

end Core.SoundRing

namespace Core

theorem cell?_eq (h : core.SoundRing size) {address : Nat} (ha : address < size) :
    core.cell? (.inRing size address) = some (core.fetch address) := by
  have hc : address < core.cells.size := ha.trans_eq h.size_eq.symm
  simp [cell?, fetch, hc]

theorem store?_eq (h : core.SoundRing size) {address : Nat} (ha : address < size)
    (insn : Instruction) :
    core.store? (.inRing size address) insn = some (core.store address insn) :=
  if_pos (ha.trans_eq h.size_eq.symm)

theorem remainder?_size_eq (h : core.SoundRing size) (dividend : Int) :
    remainder? dividend (Int64.ofNat size).toInt = some (dividend % size) := by
  have hpos := h.size_pos
  have hword := toInt_ofNat_size h.sound
  rw [h.size_eq] at hword
  rw [hword]
  exact if_neg (by omega)

theorem pointer?_eq (h : core.SoundRing size) (address : Int64) :
    core.pointer? address = some (core.pointer address) := by
  rw [pointer?, pointer, wrap, wrapAddress, h.size_eq, remainder?_size_eq h]
  rfl

theorem add?_eq (h : core.SoundRing size) {address offset : Nat} (ha : address < size)
    (ho : offset ≤ maxSize) :
    (Pointer.inRing size address).add? offset =
      some (.inRing size (core.advance address offset)) := by
  have hsum := wordSum?_eq (Nat.lt_of_lt_of_le ha h.size_le) ho
  rw [← h.add_eq, Pointer.add?, Pointer.inRing, hsum, Option.bind_eq_bind, Option.bind_some,
    remainder?_size_eq h]
  rfl

theorem offset?_eq (h : core.SoundRing size) (window : Window) (value : Int64) :
    core.offset? window value = some (core.offset window value) := by
  have hsize := h.sound.size_le
  have hpos := h.sound.distance_pos window
  have hle := h.sound.distance_le window
  have hlt := Int.emod_lt_of_pos value.toInt (b := core.distance window) (by omega)
  have hr : remainder? value.toInt (core.distance window : Int) =
      some (value.toInt % core.distance window) := if_neg (by omega)
  unfold offset? offset Window.offset
  simp only [toInt_ofNat_distance h.sound, hr, Option.bind_eq_bind, Option.bind_some]
  split
  · rw [wordSum?_eq (by omega) hsize, Option.bind_some, if_pos (by omega)]
  · rfl

theorem bump?_eq (h : core.SoundRing size) {address : Nat} (ha : address < size)
    (delta : Int64) :
    core.bump? (.inRing size address) delta = some (core.bump address delta) := by
  simp only [bump?, bump, cell?_eq h ha, h.size_eq, remainder?_size_eq h, Option.bind_eq_bind,
    Option.bind_some]
  exact store?_eq h ha _

theorem follow?_eq (h : core.SoundRing size) (window : Window) {offset : Nat} (hpc : pc < size)
    (ho : offset < size) :
    core.follow? window (.inRing size pc) offset = some (core.follow window pc offset) := by
  have hadd := add?_eq h hpc (Nat.le_trans (Nat.le_of_lt ho) h.size_le)
  simp only [follow?, hadd, cell?_eq h (h.advance_lt pc offset), Option.bind_eq_bind,
    Option.bind_some]
  exact offset?_eq h _ _

theorem followBoth?_eq (h : core.SoundRing size) (hpc : pc < size) (value : Int64) :
    core.followBoth? (.inRing size pc) value = some (core.followBoth pc value) := by
  simp only [followBoth?, offset?_eq h, follow?_eq h _ hpc (h.offset_lt _ value),
    Option.bind_eq_bind, Option.bind_some]
  rfl

theorem pointerCell?_eq (h : core.SoundRing size) (hpc : pc < size) (value : Int64) :
    core.pointerCell? (.inRing size pc) value = some (.inRing size (core.pointerCell pc value)) := by
  have ho := h.offset_lt .write value
  simp only [pointerCell?, offset?_eq h, Option.bind_eq_bind, Option.bind_some]
  exact add?_eq h hpc (Nat.le_trans (Nat.le_of_lt ho) h.size_le)

theorem targetAt?_eq (h : core.SoundRing size) (hpc : pc < size) (offsets : Nat × Nat)
    (hr : offsets.1 < size) (hw : offsets.2 < size) :
    core.targetAt? (.inRing size pc) offsets =
      some ((core.targetAt pc offsets).map (.inRing size)) := by
  have hread := add?_eq h hpc (Nat.le_trans (Nat.le_of_lt hr) h.size_le)
  have hwrite := add?_eq h hpc (Nat.le_trans (Nat.le_of_lt hw) h.size_le)
  simp only [targetAt?, hread, hwrite, cell?_eq h (h.advance_lt _ _), Option.bind_eq_bind,
    Option.bind_some]
  rfl

theorem followBoth_lt (h : core.SoundRing size) (pc : Nat) (value : Int64) :
    (core.followBoth pc value).1 < size ∧ (core.followBoth pc value).2 < size :=
  ⟨h.offset_lt _ _, h.offset_lt _ _⟩

theorem resolve?_eq (h : core.SoundRing size) (hpc : pc < size) (field : Field) :
    core.resolve? (.inRing size pc) field =
      some ((core.resolve pc field).1.map (.inRing size), (core.resolve pc field).2) := by
  unfold resolve? resolve
  simp only [cell?_eq h hpc, Option.bind_eq_bind, Option.bind_some]
  cases field.operand (core.fetch pc) with
  | mk mode value =>
    cases mode with
    | immediate =>
      have ht := targetAt?_eq h hpc (0, 0) h.size_pos h.size_pos
      simp only [ht, Option.bind_some]
      rfl
    | direct =>
      have ht := targetAt?_eq h hpc (core.offset .read value, core.offset .write value)
        (h.offset_lt _ _) (h.offset_lt _ _)
      simp only [offset?_eq h, ht, Option.bind_some]
      rfl
    | indirect =>
      have ho := followBoth_lt h pc value
      simp only [followBoth?_eq h hpc, targetAt?_eq h hpc _ ho.1 ho.2, Option.bind_some]
      rfl
    | preDecrement =>
      have hp : core.pointerCell pc value < size := h.advance_lt _ _
      have hb := h.of_shape_eq (shape_bump core (core.pointerCell pc value) (-1))
      have ho := followBoth_lt hb pc value
      simp only [pointerCell?_eq h hpc, bump?_eq h hp, followBoth?_eq hb hpc,
        targetAt?_eq hb hpc _ ho.1 ho.2, Option.bind_some]
      rfl
    | postIncrement =>
      have hp : core.pointerCell pc value < size := h.advance_lt _ _
      have hb := h.of_shape_eq (shape_bump core (core.pointerCell pc value) 1)
      have ho := followBoth_lt h pc value
      simp only [pointerCell?_eq h hpc, bump?_eq h hp, followBoth?_eq h hpc,
        targetAt?_eq hb hpc _ ho.1 ho.2, Option.bind_some]
      rfl

theorem decode?_eq (h : core.SoundRing size) (hpc : pc < size) :
    core.decode? (.inRing size pc) =
      some ((core.decode pc).1.map (.inRing size), (core.decode pc).2) := by
  have ha := h.of_shape_eq (shape_resolve core pc .a)
  simp only [decode?, cell?_eq h hpc, resolve?_eq h hpc, resolve?_eq ha hpc, Option.bind_eq_bind,
    Option.bind_some]
  rfl

theorem writeTarget?_eq (h : core.SoundRing size) (hd : d.Within size) (values : List Int64) :
    core.writeTarget? (d.map (.inRing size)) values = some (core.writeTarget d values) := by
  change (core.cell? (.inRing size d.b.write) >>= fun cell =>
    core.store? (.inRing size d.b.write) (d.insn.modifier.target.write values cell)) = _
  rw [cell?_eq h hd.write_lt, Option.bind_eq_bind, Option.bind_some]
  exact store?_eq h hd.write_lt _

theorem next?_eq (h : core.SoundRing size) (hpc : d.pc < size) :
    (d.map (.inRing size)).next? = some ((core.next d).map (.inRing size)) := by
  rw [Decoded.next?, Decoded.map, add?_eq h hpc (by decide)]
  rfl

theorem jumpIf?_eq (h : core.SoundRing size) (hpc : d.pc < size) (taken : Bool) :
    (d.map (.inRing size)).jumpIf? taken = some ((core.jumpIf d taken).map (.inRing size)) := by
  cases taken with
  | true => rfl
  | false =>
    simpa only [Decoded.jumpIf?, jumpIf, Bool.false_eq_true, if_false] using next?_eq h hpc

theorem skipIf?_eq (h : core.SoundRing size) (hpc : d.pc < size) (skipped : Bool) :
    (d.map (.inRing size)).skipIf? skipped = some ((core.skipIf d skipped).map (.inRing size)) := by
  cases skipped with
  | true =>
    rw [Decoded.skipIf?, Decoded.map, add?_eq h hpc (by decide)]
    rfl
  | false =>
    simpa only [Decoded.skipIf?, skipIf, Bool.false_eq_true, if_false] using next?_eq h hpc

theorem move?_eq (h : core.SoundRing size) (hd : d.Within size) (hpc : d.pc < size) :
    core.move? (d.map (.inRing size)) =
      some ((core.move d).1.map (.inRing size), (core.move d).2) := by
  have hstore := store?_eq h hd.write_lt d.a.insn
  unfold move? move
  rw [next?_eq h hpc, Decoded.map_insn, Decoded.map_source, writeTarget?_eq h hd]
  by_cases hi : d.insn.modifier = .i
  · simp only [hi, if_true, Decoded.map, Target.map, hstore, Option.bind_eq_bind, Option.bind_some]
    rfl
  · simp only [hi, if_false, Option.bind_eq_bind, Option.bind_some]
    rfl

theorem compute?_eq (h : core.SoundRing size) (hd : d.Within size) (hpc : d.pc < size)
    (op : Operator) :
    core.compute? (d.map (.inRing size)) op =
      some ((core.compute d op).1.map (.inRing size), (core.compute d op).2) := by
  unfold compute? compute
  simp only [Operator.applyAll?_eq, writeTarget?_eq h hd, next?_eq h hpc, Decoded.map_target,
    Decoded.map_source, Option.bind_eq_bind, Option.bind_some]
  cases (op.applyAll (d.target.zip d.source)).2 <;> rfl

theorem decrementJump?_eq (h : core.SoundRing size) (hd : d.Within size) (hpc : d.pc < size) :
    core.decrementJump? (d.map (.inRing size)) =
      some ((core.decrementJump d).1.map (.inRing size), (core.decrementJump d).2) := by
  simp only [decrementJump?, jumpIf?_eq h hpc, writeTarget?_eq h hd, Decoded.map_target,
    Option.bind_eq_bind, Option.bind_some]
  rfl

theorem act?_eq (h : core.SoundRing size) (hd : d.Within size) (hpc : d.pc < size) :
    core.act? (d.map (.inRing size)) =
      some ((core.act d).1.map (.inRing size), (core.act d).2) := by
  unfold act? act
  rw [Decoded.map_insn]
  cases d.insn.opcode with
  | dat | jmp => rfl
  | mov => exact move?_eq h hd hpc
  | add | sub | mul | div | mod => exact compute?_eq h hd hpc _
  | jmz | jmn => simp only [Decoded.map_target, jumpIf?_eq h hpc, Option.map_some]
  | djn => exact decrementJump?_eq h hd hpc
  | cmp | slt => exact congrArg (Option.map _) (skipIf?_eq h hpc _)
  | spl =>
    simp only [Decoded.map, add?_eq h hpc (by decide : 1 ≤ maxSize), Option.map_some]
    rfl

/-- An instruction of a sound core reads and writes cells of the core only, divides by zero nowhere,
and every pointer that comes out of it goes around the same core. -/
theorem execute?_eq (h : core.SoundRing size) (hpc : pc < size) :
    core.execute? (.inRing size pc) =
      some ((core.execute pc).1.map (.inRing size), (core.execute pc).2) := by
  have hd := decode_within h.sound.size_pos pc
  rw [h.size_eq] at hd
  simp only [execute?, decode?_eq h hpc, Option.bind_eq_bind, Option.bind_some]
  exact act?_eq (h.of_shape_eq (shape_decode core pc)) hd hpc

end Core

end

end CoreWar
