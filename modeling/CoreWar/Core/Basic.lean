import CoreWar.Instruction.Field
import CoreWar.Settings

namespace CoreWar

/-- The offset, counted forward around a core of `size` cells, that `address` has in a window of
`limit` cells around the origin. What lies beyond the middle of the window counts backward. The
remainder is taken between signed words, so a limit from `2 ^ 63` on divides by `2 ^ 64 - limit`. -/
def Window.offset (address : Int64) (limit size : Nat) : Nat :=
  let r := (address.toInt % (Int64.ofNat limit).toInt).toNat
  if limit / 2 < r then r + size - limit else r

/-- The cell that a signed address names in a core of `size` cells. -/
def wrapAddress (size : Nat) (address : Int64) : Nat := (address.toInt % size).toNat

/-- A cell by its address, with the size of the core that the pointer was made for. -/
structure Pointer where
  address : Nat
  size : Nat
  deriving DecidableEq

/-- Goes on by a signed offset, around the core that the pointer was made for. -/
def Pointer.add (pointer : Pointer) (offset : Int) : Pointer :=
  ⟨((pointer.address + offset) % pointer.size).toNat, pointer.size⟩

structure Core where
  cells : Array Instruction
  readDistance : Nat
  writeDistance : Nat
  deriving DecidableEq

namespace Core

def ofSettings (settings : Settings) : Core :=
  ⟨Array.replicate settings.coreSize settings.initial, settings.readDistance,
    settings.writeDistance⟩

def size (core : Core) : Nat := core.cells.size

def distance (core : Core) : Window → Nat
  | .read => core.readDistance
  | .write => core.writeDistance

def wrap (core : Core) (address : Int64) : Nat := wrapAddress core.size address

def pointer (core : Core) (address : Int64) : Pointer := ⟨core.wrap address, core.size⟩

def advance (core : Core) (address offset : Nat) : Nat := (address + offset) % core.size

def offset (core : Core) (window : Window) (address : Int64) : Nat :=
  Window.offset address (core.distance window) core.size

def fetch (core : Core) (address : Nat) : Instruction := core.cells.getD address .empty

def store (core : Core) (address : Nat) (insn : Instruction) : Core :=
  { core with cells := core.cells.setIfInBounds address insn }

/-- Adds to the B value of a cell, modulo the size of the core. -/
def bump (core : Core) (address : Nat) (delta : Int64) : Core :=
  let cell := core.fetch address
  let value := Int64.ofInt ((cell.b.value + delta).toInt % core.size)
  core.store address (Field.b.set value cell)

def storeAll (core : Core) (address : Nat) : List Instruction → Core
  | [] => core
  | insn :: code => (core.store address insn).storeAll (core.advance address 1) code

end Core

end CoreWar
