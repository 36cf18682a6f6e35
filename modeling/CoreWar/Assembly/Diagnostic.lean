import CoreWar.Source.Error
import CoreWar.Text.Blank
import CoreWar.Text.Lines

namespace CoreWar.SourceError

structure Location where
  line : Nat
  column : Nat
  message : String

/-- Lines count from 1. -/
def sourceLine? (texts : List (List Char)) (line : Nat) : Option (List Char) := texts[line - 1]?

def firstColumn (text : List Char) : Nat := Text.byteLength (text.takeWhile Text.isBlank) + 1

/-- An error that knows its line, but no column, is shown at the start of the line's text. -/
def location? (texts : List (List Char)) : SourceError → Option Location
  | malformed line column fault => some ⟨line, column, fault.message⟩
  | atLine line cause =>
    some ⟨line, ((sourceLine? texts line).map firstColumn).getD 1, cause.root.message⟩
  | _ => none

def excerpt (line column : Nat) (text : List Char) : String :=
  let code := (text.reverse.dropWhile (· == '\r')).reverse
  "  |\n" ++ Text.padLeft 4 ' ' (toString line) ++ " | " ++ String.ofList code ++ "\n"
    ++ "  | " ++ String.ofList (List.replicate (column - 1) ' ') ++ "^\n"

def diagnostic (file source : String) (error : SourceError) : String :=
  let texts := Text.lines source.toList
  match error.location? texts with
  | none => s!"error: {error.message}\n"
  | some ⟨line, column, message⟩ =>
    s!"error: {message}\n --> {file}:{line}:{column}\n"
      ++ ((sourceLine? texts line).map (excerpt line column)).getD ""

end CoreWar.SourceError
