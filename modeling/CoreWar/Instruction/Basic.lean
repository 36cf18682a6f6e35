import CoreWar.Instruction.Mode
import CoreWar.Instruction.Opcode
import CoreWar.Text.Decimal

namespace CoreWar

structure Operand where
  mode : Mode
  value : Int64
  deriving DecidableEq

def Operand.text (operand : Operand) : String :=
  String.singleton operand.mode.sigil ++ Text.signed operand.value

structure Instruction where
  opcode : Opcode
  modifier : Modifier
  a : Operand
  b : Operand
  deriving DecidableEq

namespace Instruction

def text (insn : Instruction) : String :=
  insn.opcode.mnemonic ++ "." ++ insn.modifier.name ++ " " ++ insn.a.text ++ ", " ++ insn.b.text

def empty : Instruction := ⟨.dat, .f, ⟨.immediate, 0⟩, ⟨.immediate, 0⟩⟩

end Instruction

end CoreWar
