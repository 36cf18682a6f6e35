import CoreWar.Source.Phrase
import CoreWar.Source.Record

namespace CoreWar.Source

inductive Keyword where
  | opcode (opcode : Opcode)
  | origin
  | finish
  | equate
  deriving DecidableEq

def Keyword.ofWord? (word : String) : Option Keyword :=
  match Opcode.ofMnemonic? word with
  | some op => some (opcode op)
  | none =>
    if Text.sameName word "ORG" then some origin
    else if Text.sameName word "END" then some finish
    else if Text.sameName word "EQU" then some equate
    else none

/-- Takes the leading words that are no keywords, each with the colon that may follow it. -/
def readLabels : List Token → List String × List Token
  | ⟨.word name, column⟩ :: tokens =>
    if (Keyword.ofWord? name).isSome then
      ([], ⟨.word name, column⟩ :: tokens)
    else
      match tokens with
      | ⟨.colon, _⟩ :: more =>
        let (labels, rest) := readLabels more
        (name :: labels, rest)
      | more =>
        let (labels, rest) := readLabels more
        (name :: labels, rest)
  | tokens => ([], tokens)

def readOperand (stop : Nat) (tokens : List Token) :
    Except Refusal (DraftOperand × List Token) :=
  match tokens with
  | ⟨.sigil mode, _⟩ :: more => (readExpr stop more).map fun (e, rest) => (⟨some mode, e⟩, rest)
  | more => (readExpr stop more).map fun (e, rest) => (⟨none, e⟩, rest)

def readModifier (stop : Nat) (tokens : List Token) :
    Except Refusal (Option Modifier × List Token) :=
  match tokens with
  | ⟨.dot, _⟩ :: ⟨.word name, column⟩ :: rest =>
    match Modifier.ofName? name with
    | some modifier => .ok (some modifier, rest)
    | none => .error ⟨column, .unknownModifier name⟩
  | ⟨.dot, _⟩ :: rest => .error ⟨nextColumn stop rest, .modifierExpected⟩
  | rest => .ok (none, rest)

def readDraft (stop : Nat) (opcode : Opcode) (tokens : List Token) :
    Except Refusal (Draft × List Token) := do
  let (modifier, tokens) ← readModifier stop tokens
  let (a, tokens) ← readOperand stop tokens
  match tokens with
  | ⟨.comma, _⟩ :: tokens =>
    let (b, tokens) ← readOperand stop tokens
    return (⟨opcode, modifier, a, some b⟩, tokens)
  | tokens => return (⟨opcode, modifier, a, none⟩, tokens)

def expectEnd {α : Type} : α × List Token → Except Refusal α
  | (value, []) => .ok value
  | (_, token :: _) => .error ⟨token.column, .trailingInput⟩

/-- What follows the labels of a line. Naming an expression takes a label, here or before. -/
def readBody (stop : Nat) (labelled : Bool) : List Token → Except Refusal (Option Body)
  | [] => .ok none
  | ⟨.word word, column⟩ :: tokens =>
    match Keyword.ofWord? word with
    | none => .error ⟨column, .labelOrOpcodeExpected⟩
    | some (.opcode opcode) => do
      let draft ← expectEnd (← readDraft stop opcode tokens)
      return some (.instruction draft)
    | some .origin => do
      let e ← expectEnd (← readExpr stop tokens)
      return some (.origin e)
    | some .finish => do
      if tokens.isEmpty then
        return some (.finish none)
      let e ← expectEnd (← readExpr stop tokens)
      return some (.finish (some e))
    | some .equate => do
      if !labelled then
        throw ⟨column, .labelRequired⟩
      let e ← expectEnd (← readExpr stop tokens)
      return some (.equate e)
  | token :: _ => .error ⟨token.column, .labelOrOpcodeExpected⟩

structure Line where
  labels : List String
  body : Option Body
  deriving DecidableEq

def comment? (text : List Char) : Option (List Char) :=
  match Text.trimStart text with
  | ';' :: comment => some comment
  | _ => none

/-- Reads a line; comments and blank lines give nothing. `pending` tells that labels of earlier
lines still wait for what they stand for. -/
def Line.read (pending : Bool) (text : List Char) : Except Refusal (Option Line) :=
  if (comment? text).isSome then
    .ok none
  else
    match scan 1 text with
    | .error refusal => .error refusal
    | .ok [] => .ok none
    | .ok tokens =>
      let (labels, rest) := readLabels tokens
      (readBody (endColumn text) (pending || !labels.isEmpty) rest).map fun body =>
        some ⟨labels, body⟩

def readInstruction (text : List Char) : Except Refusal Draft := do
  let tokens ← scan 1 text
  match tokens with
  | ⟨.word word, column⟩ :: rest =>
    match Keyword.ofWord? word with
    | some (.opcode opcode) => expectEnd (← readDraft (endColumn text) opcode rest)
    | _ => throw ⟨column, .opcodeExpectedAt word⟩
  | tokens => throw ⟨nextColumn (endColumn text) tokens, .opcodeExpected⟩

end CoreWar.Source
