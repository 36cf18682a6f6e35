import CoreWar.Core.Target

namespace CoreWar

/-- Where a task goes on, if it does, and where a new task starts. -/
structure Update (Address : Type := Nat) where
  next : Option Address
  spawn : Option Address := none
  deriving DecidableEq

variable {Address : Type}

namespace Update

def halt : Update Address := ⟨none, none⟩

def continueAt (address : Address) : Update Address := ⟨some address, none⟩

end Update

/-- An instruction about to act. `insn` is the cell before its operands were resolved. -/
structure Decoded (Address : Type := Nat) where
  pc : Address
  insn : Instruction
  a : Target Address
  b : Target Address
  deriving DecidableEq

namespace Decoded

def source (d : Decoded Address) : List Int64 := d.insn.modifier.source.read d.a.insn

def target (d : Decoded Address) : List Int64 := d.insn.modifier.target.read d.b.insn

end Decoded

namespace Core

def decode (core : Core) (pc : Nat) : Decoded × Core :=
  let insn := core.fetch pc
  let (a, core) := core.resolve pc .a
  let (b, core) := core.resolve pc .b
  (⟨pc, insn, a, b⟩, core)

def writeTarget (core : Core) (d : Decoded) (values : List Int64) : Core :=
  core.store d.b.write (d.insn.modifier.target.write values (core.fetch d.b.write))

def next (core : Core) (d : Decoded) : Update := .continueAt (core.advance d.pc 1)

def jumpIf (core : Core) (d : Decoded) (taken : Bool) : Update :=
  if taken then .continueAt d.a.read else core.next d

def skipIf (core : Core) (d : Decoded) (skipped : Bool) : Update :=
  if skipped then .continueAt (core.advance d.pc 2) else core.next d

def move (core : Core) (d : Decoded) : Update × Core :=
  let update := core.next d
  if d.insn.modifier = .i then
    (update, core.store d.b.write d.a.insn)
  else
    (update, core.writeTarget d d.source)

/-- Computes field by field. At a pair without a result the task ends, and only the fields before
it are written. -/
def compute (core : Core) (d : Decoded) (op : Operator) : Update × Core :=
  let (values, complete) := op.applyAll (d.target.zip d.source)
  let update := if complete then core.next d else .halt
  (update, core.writeTarget d values)

def decrementJump (core : Core) (d : Decoded) : Update × Core :=
  let values := d.target.map (· - 1)
  let update := core.jumpIf d (values.all (· ≠ 0))
  (update, core.writeTarget d values)

def compare (core : Core) (d : Decoded) : Update :=
  core.skipIf d <|
    if d.insn.modifier = .i then d.a.insn = d.b.insn
    else (d.source.zip d.target).all fun (a, b) => a = b

def act (core : Core) (d : Decoded) : Update × Core :=
  match d.insn.opcode with
  | .dat => (.halt, core)
  | .mov => core.move d
  | .add => core.compute d .add
  | .sub => core.compute d .sub
  | .mul => core.compute d .mul
  | .div => core.compute d .div
  | .mod => core.compute d .mod
  | .jmp => (.continueAt d.a.read, core)
  | .jmz => (core.jumpIf d (d.target.all (· = 0)), core)
  | .jmn => (core.jumpIf d (d.target.all (· ≠ 0)), core)
  | .djn => core.decrementJump d
  | .cmp => (core.compare d, core)
  | .slt => (core.skipIf d ((d.source.zip d.target).all fun (a, b) => a < b), core)
  | .spl => (⟨some (core.advance d.pc 1), some d.a.write⟩, core)

def execute (core : Core) (pc : Nat) : Update × Core :=
  let (d, core) := core.decode pc
  core.act d

end Core

end CoreWar
