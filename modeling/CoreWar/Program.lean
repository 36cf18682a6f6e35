import CoreWar.Instruction.Basic
import CoreWar.Source.Error
import CoreWar.Source.Metadata

namespace CoreWar

structure Program where
  code : List Instruction
  start : Nat
  metadata : Metadata := {}
  start_lt : start < code.length

namespace Program

def length (program : Program) : Nat := program.code.length

def ofCode (code : List Instruction) (start : Int64) : Except SourceError Program :=
  if h : 0 ≤ start ∧ start.toInt.toNat < code.length then
    .ok { code, start := start.toInt.toNat, start_lt := h.2 }
  else
    .error (.startOutOfRange start code.length)

end Program

end CoreWar
