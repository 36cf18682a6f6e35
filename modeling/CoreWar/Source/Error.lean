import CoreWar.File
import CoreWar.Instruction.Basic
import CoreWar.Source.Fault

namespace CoreWar

inductive SourceError where
  | malformed (line column : Nat) (fault : Source.Fault)
  | duplicateSymbol (name : String)
  | undefinedSymbol (name : String)
  | circularEquate (name : String)
  | divisionByZero
  | instructionAfterEnd
  | startOutOfRange (index : Int64) (length : Nat)
  | noDefaultModifier (opcode : Opcode) (a b : Mode)
  | atLine (line : Nat) (cause : SourceError)
  | unreadable (path : String) (fault : FileFault)
  deriving DecidableEq

namespace SourceError

def message : SourceError → String
  | malformed line column fault => s!"line {line}:{column}: {fault.message}"
  | duplicateSymbol name => s!"duplicate symbol: {name}"
  | undefinedSymbol name => s!"undefined symbol: {name}"
  | circularEquate name => s!"circular EQU definition: {name}"
  | divisionByZero => "division by zero in constant expression"
  | instructionAfterEnd => "instruction after END"
  | startOutOfRange index length =>
    "start index " ++ Text.signed index ++ s!" outside program of length {length}"
  | noDefaultModifier opcode a b => s!"no default modifier for {opcode.mnemonic} {a.sigil}/{b.sigil}"
  | atLine line cause => s!"line {line}: " ++ cause.message
  | unreadable path fault => s!"io error reading {path}: {fault.message}"

/-- Says on which line an error arose, unless it says so already or no line is known. -/
def locate (line : Option Nat) (error : SourceError) : SourceError :=
  match error, line with
  | malformed .., _ | atLine .., _ | _, none => error
  | _, some line => atLine line error

def root : SourceError → SourceError
  | atLine _ cause => cause.root
  | error => error

end SourceError

end CoreWar
