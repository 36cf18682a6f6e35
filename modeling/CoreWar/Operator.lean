namespace CoreWar

inductive Operator where
  | add | sub | mul | div | mod
  deriving DecidableEq

namespace Operator

def all : List Operator := [add, sub, mul, div, mod]

def symbol : Operator → Char
  | add => '+'
  | sub => '-'
  | mul => '*'
  | div => '/'
  | mod => '%'

def ofSymbol? (c : Char) : Option Operator := all.find? (·.symbol == c)

def isAdditive : Operator → Bool
  | add | sub => true
  | _ => false

/-- The quotient rounded down. The division of words rounds toward zero, so a quotient that is
negative and not exact is one too large. -/
def floorDiv (lhs rhs : Int64) : Int64 :=
  if lhs % rhs ≠ 0 ∧ (decide (lhs < 0) != decide (rhs < 0)) then lhs / rhs - 1 else lhs / rhs

def apply (op : Operator) (lhs rhs : Int64) : Option Int64 :=
  match op with
  | add => some (lhs + rhs)
  | sub => some (lhs - rhs)
  | mul => some (lhs * rhs)
  | div => if rhs = 0 then none else some (floorDiv lhs rhs)
  | mod => if rhs = 0 then none else some (lhs % rhs)

/-- The results of the leading pairs that have one, and whether all pairs have one. -/
def applyAll (op : Operator) : List (Int64 × Int64) → List Int64 × Bool
  | [] => ([], true)
  | (lhs, rhs) :: pairs =>
    match op.apply lhs rhs with
    | none => ([], false)
    | some value =>
      let (values, complete) := op.applyAll pairs
      (value :: values, complete)

end Operator

end CoreWar
