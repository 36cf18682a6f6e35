namespace CoreWar.Source

inductive Fault where
  | literalOutOfRange (digits : String)
  | unexpectedCharacter (c : Char)
  | unknownModifier (name : String)
  | modifierExpected
  | expressionExpected
  | closingExpected
  | labelOrOpcodeExpected
  | labelRequired
  | trailingInput
  | opcodeExpected
  | opcodeExpectedAt (word : String)
  deriving DecidableEq

def Fault.message : Fault → String
  | literalOutOfRange digits => s!"integer literal `{digits}` out of range"
  | unexpectedCharacter c => s!"unexpected character `{c}`"
  | unknownModifier name => s!"unknown modifier `{name}`"
  | modifierExpected => "expected modifier after `.`"
  | expressionExpected => "expected expression"
  | closingExpected => "expected `)`"
  | labelOrOpcodeExpected => "expected label or opcode"
  | labelRequired => "EQU requires a label"
  | trailingInput => "unexpected trailing input"
  | opcodeExpected => "expected opcode"
  | opcodeExpectedAt word => s!"expected opcode, found `{word}`"

/-- A fault and the column, counted in bytes from 1, where it was found. -/
structure Refusal where
  column : Nat
  fault : Fault
  deriving DecidableEq

end CoreWar.Source
