import CoreWar.Core.Basic

namespace CoreWar

/-- Where an operand reads and writes, and what it reads there. -/
structure Target (Address : Type := Nat) where
  insn : Instruction
  read : Address
  write : Address
  deriving DecidableEq

namespace Core

/-- Follows the cell at `offset` from `pc` to another offset in the same window. -/
def follow (core : Core) (window : Window) (pc offset : Nat) : Nat :=
  core.offset window
    (Int64.ofNat offset + (core.fetch (core.advance pc offset)).b.value)

def followBoth (core : Core) (pc : Nat) (value : Int64) : Nat × Nat :=
  (core.follow .read pc (core.offset .read value), core.follow .write pc (core.offset .write value))

/-- The cell that an indirect operand decrements or increments. -/
def pointerCell (core : Core) (pc : Nat) (value : Int64) : Nat :=
  core.advance pc (core.offset .write value)

def targetAt (core : Core) (pc : Nat) (offsets : Nat × Nat) : Target :=
  let read := core.advance pc offsets.1
  ⟨core.fetch read, read, core.advance pc offsets.2⟩

def resolve (core : Core) (pc : Nat) (field : Field) : Target × Core :=
  let ⟨mode, value⟩ := field.operand (core.fetch pc)
  match mode with
  | .immediate => (core.targetAt pc (0, 0), core)
  | .direct => (core.targetAt pc (core.offset .read value, core.offset .write value), core)
  | .indirect => (core.targetAt pc (core.followBoth pc value), core)
  | .preDecrement =>
    let core := core.bump (core.pointerCell pc value) (-1)
    (core.targetAt pc (core.followBoth pc value), core)
  | .postIncrement =>
    let offsets := core.followBoth pc value
    let core := core.bump (core.pointerCell pc value) 1
    (core.targetAt pc offsets, core)

end Core

end CoreWar
