import CoreWar.Instruction.Mode
import CoreWar.Operator
import CoreWar.Source.Fault
import CoreWar.Text.Blank
import CoreWar.Text.Decimal

namespace CoreWar.Source

inductive Lexeme where
  | word (name : String)
  | number (value : Nat)
  | sigil (mode : Mode)
  | operator (op : Operator)
  | opening
  | closing
  | comma
  | dot
  | colon
  deriving DecidableEq

namespace Lexeme

def ofMark? (c : Char) : Option Lexeme :=
  match Mode.ofSigil? c, Operator.ofSymbol? c with
  | some mode, _ => some (sigil mode)
  | none, some op => some (operator op)
  | none, none =>
    match c with
    | '(' => some opening
    | ')' => some closing
    | ',' => some comma
    | '.' => some dot
    | ':' => some colon
    | _ => none

end Lexeme

structure Token where
  lexeme : Lexeme
  column : Nat
  deriving DecidableEq

def isSeparator (c : Char) : Bool := c == ' ' || c == '\t' || c == '\r'

def isWordStart (c : Char) : Bool := c.isAlpha || c == '_'

def isWordPart (c : Char) : Bool := c.isAlphanum || c == '_'

/-- Numbers and addresses are 64-bit words, so a literal is below this. -/
def literalBound : Nat := UInt64.size

theorem length_dropWhile_le {α : Type} (p : α → Bool) (l : List α) :
    (l.dropWhile p).length ≤ l.length := by
  induction l with
  | nil => simp
  | cons a l ih =>
    rw [List.dropWhile_cons]
    split
    · simp only [List.length_cons]; omega
    · exact Nat.le_refl _

/-- The tokens of a text that starts at `column`. Words and numbers are as long as they can be. -/
def scan (column : Nat) : List Char → Except Refusal (List Token)
  | [] => .ok []
  | c :: cs =>
    if c = ';' then
      .ok []
    else if isSeparator c then
      scan (column + 1) cs
    else if c.isDigit then
      let digits := c :: cs.takeWhile Char.isDigit
      if Text.numeral digits < literalBound then
        (scan (column + Text.byteLength digits) (cs.dropWhile Char.isDigit)).map
          (⟨.number (Text.numeral digits), column⟩ :: ·)
      else
        .error ⟨column, .literalOutOfRange (String.ofList digits)⟩
    else if isWordStart c then
      let letters := c :: cs.takeWhile isWordPart
      (scan (column + Text.byteLength letters) (cs.dropWhile isWordPart)).map
        (⟨.word (String.ofList letters), column⟩ :: ·)
    else
      match Lexeme.ofMark? c with
      | some lexeme => (scan (column + 1) cs).map (⟨lexeme, column⟩ :: ·)
      | none => .error ⟨column, .unexpectedCharacter c⟩
termination_by cs => cs.length
decreasing_by
  all_goals
    have := length_dropWhile_le Char.isDigit cs
    have := length_dropWhile_le isWordPart cs
    simp only [List.length_cons]
    omega

/-- The column just past the code of a line, where a missing token is reported. -/
def endColumn (line : List Char) : Nat :=
  Text.byteLength (Text.trimEnd (line.takeWhile (· != ';'))) + 1

def nextColumn (stop : Nat) : List Token → Nat
  | [] => stop
  | token :: _ => token.column

end CoreWar.Source
