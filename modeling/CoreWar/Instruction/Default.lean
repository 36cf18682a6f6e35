import CoreWar.Instruction.Basic

namespace CoreWar

structure DefaultRule where
  aModes : List Mode
  bModes : List Mode
  modifier : Modifier

namespace DefaultRule

def covers (rule : DefaultRule) (a b : Mode) : Bool :=
  rule.aModes.contains a && rule.bModes.contains b

def addressing : List Mode := [.direct, .indirect, .preDecrement, .postIncrement]

end DefaultRule

namespace Opcode

open DefaultRule

def defaultRules : Opcode → List DefaultRule
  | dat => [⟨Mode.all, Mode.all, .f⟩]
  | mov | cmp =>
    [⟨[.immediate], Mode.all, .ab⟩, ⟨addressing, [.immediate], .b⟩, ⟨addressing, addressing, .i⟩]
  | add | sub | mul | div | mod => [⟨[.immediate], Mode.all, .ab⟩, ⟨addressing, Mode.all, .ab⟩]
  | jmp | jmz | jmn | djn | spl => [⟨Mode.all, Mode.all, .b⟩]
  | slt => [⟨[.immediate], Mode.all, .ab⟩, ⟨addressing, Mode.all, .b⟩]

def defaultModifier? (opcode : Opcode) (a b : Mode) : Option Modifier :=
  (opcode.defaultRules.find? (·.covers a b)).map (·.modifier)

end Opcode

end CoreWar
