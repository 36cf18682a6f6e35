import CoreWar.Expr
import CoreWar.Source.Token

namespace CoreWar.Source

abbrev Shorter (tokens : List Token) := { rest : List Token // rest.length < tokens.length }

abbrev NotLonger (tokens : List Token) := { rest : List Token // rest.length ≤ tokens.length }

/-- The magnitude of the least word, a literal only after a minus sign. -/
def leastMagnitude : Nat := UInt64.size / 2

mutual

def readSum (stop : Nat) (tokens : List Token) : Except Refusal (Expr × Shorter tokens) :=
  match readProduct stop tokens with
  | .error refusal => .error refusal
  | .ok (lhs, ⟨rest, h⟩) =>
    match readSumTail stop lhs rest with
    | .error refusal => .error refusal
    | .ok (e, ⟨rest', h'⟩) => .ok (e, ⟨rest', Nat.lt_of_le_of_lt h' h⟩)
termination_by (tokens.length, 3)

/-- Goes on with a sum whose terms so far are `lhs`. -/
def readSumTail (stop : Nat) (lhs : Expr) (tokens : List Token) :
    Except Refusal (Expr × NotLonger tokens) :=
  match tokens with
  | ⟨.operator op, column⟩ :: more =>
    if op.isAdditive then
      match readProduct stop more with
      | .error refusal => .error refusal
      | .ok (rhs, ⟨rest, h⟩) =>
        match readSumTail stop (.binary op lhs rhs) rest with
        | .error refusal => .error refusal
        | .ok (e, ⟨rest', h'⟩) => .ok (e, ⟨rest', by simp only [List.length_cons]; omega⟩)
    else
      .ok (lhs, ⟨⟨.operator op, column⟩ :: more, Nat.le_refl _⟩)
  | rest => .ok (lhs, ⟨rest, Nat.le_refl _⟩)
termination_by (tokens.length, 0)

def readProduct (stop : Nat) (tokens : List Token) : Except Refusal (Expr × Shorter tokens) :=
  match readUnary stop tokens with
  | .error refusal => .error refusal
  | .ok (lhs, ⟨rest, h⟩) =>
    match readProductTail stop lhs rest with
    | .error refusal => .error refusal
    | .ok (e, ⟨rest', h'⟩) => .ok (e, ⟨rest', Nat.lt_of_le_of_lt h' h⟩)
termination_by (tokens.length, 2)

def readProductTail (stop : Nat) (lhs : Expr) (tokens : List Token) :
    Except Refusal (Expr × NotLonger tokens) :=
  match tokens with
  | ⟨.operator op, column⟩ :: more =>
    if op.isAdditive then
      .ok (lhs, ⟨⟨.operator op, column⟩ :: more, Nat.le_refl _⟩)
    else
      match readUnary stop more with
      | .error refusal => .error refusal
      | .ok (rhs, ⟨rest, h⟩) =>
        match readProductTail stop (.binary op lhs rhs) rest with
        | .error refusal => .error refusal
        | .ok (e, ⟨rest', h'⟩) => .ok (e, ⟨rest', by simp only [List.length_cons]; omega⟩)
  | rest => .ok (lhs, ⟨rest, Nat.le_refl _⟩)
termination_by (tokens.length, 0)

def readUnary (stop : Nat) (tokens : List Token) : Except Refusal (Expr × Shorter tokens) :=
  match tokens with
  | ⟨.operator .sub, _⟩ :: more =>
    if more.head?.map (·.lexeme) = some (.number leastMagnitude) then
      .ok (.number Int64.minValue, ⟨more.tail, by simp only [List.length_tail, List.length_cons]; omega⟩)
    else
      match readUnary stop more with
      | .error refusal => .error refusal
      | .ok (e, ⟨rest, h⟩) => .ok (e.negate, ⟨rest, by simp only [List.length_cons]; omega⟩)
  | ⟨.operator .add, _⟩ :: more =>
    match readUnary stop more with
    | .error refusal => .error refusal
    | .ok (e, ⟨rest, h⟩) => .ok (e, ⟨rest, by simp only [List.length_cons]; omega⟩)
  | rest => readPrimary stop rest
termination_by (tokens.length, 1)

def readPrimary (stop : Nat) (tokens : List Token) : Except Refusal (Expr × Shorter tokens) :=
  match tokens with
  | ⟨.number value, column⟩ :: more =>
    if value < leastMagnitude then
      .ok (.number (Int64.ofNat value), ⟨more, by simp only [List.length_cons]; omega⟩)
    else
      .error ⟨column, .literalOutOfRange (toString value)⟩
  | ⟨.word name, _⟩ :: more => .ok (.symbol name, ⟨more, by simp only [List.length_cons]; omega⟩)
  | ⟨.opening, _⟩ :: more =>
    match readSum stop more with
    | .error refusal => .error refusal
    | .ok (e, ⟨rest, h⟩) =>
      if rest.head?.map (·.lexeme) = some .closing then
        .ok (e, ⟨rest.tail, by simp only [List.length_tail, List.length_cons]; omega⟩)
      else
        .error ⟨nextColumn stop rest, .closingExpected⟩
  | rest => .error ⟨nextColumn stop rest, .expressionExpected⟩
termination_by (tokens.length, 0)

end

def readExpr (stop : Nat) (tokens : List Token) : Except Refusal (Expr × List Token) :=
  (readSum stop tokens).map fun (e, rest) => (e, rest.val)

end CoreWar.Source
