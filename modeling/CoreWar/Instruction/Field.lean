import CoreWar.Instruction.Basic

namespace CoreWar

inductive Field where
  | a | b
  deriving DecidableEq

namespace Field

def operand (field : Field) (insn : Instruction) : Operand :=
  match field with
  | a => insn.a
  | b => insn.b

def get (field : Field) (insn : Instruction) : Int64 := (field.operand insn).value

def set (field : Field) (value : Int64) (insn : Instruction) : Instruction :=
  match field with
  | a => { insn with a.value := value }
  | b => { insn with b.value := value }

end Field

/-- Fields in the order in which values are read from them and written to them. -/
abbrev Selection := List Field

namespace Selection

def read (fields : Selection) (insn : Instruction) : List Int64 := fields.map (·.get insn)

/-- Writes the values to the fields in order; fields without a value keep theirs. -/
def write : Selection → List Int64 → Instruction → Instruction
  | field :: fields, value :: values, insn => write fields values (field.set value insn)
  | _, _, insn => insn

end Selection

namespace Modifier

def source : Modifier → Selection
  | a | ab => [.a]
  | b | ba => [.b]
  | f | i | x => [.a, .b]

def target : Modifier → Selection
  | a | ba => [.a]
  | b | ab => [.b]
  | f | i => [.a, .b]
  | x => [.b, .a]

end Modifier

end CoreWar
