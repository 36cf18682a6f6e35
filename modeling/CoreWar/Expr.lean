import CoreWar.Operator
import CoreWar.Text.Decimal

namespace CoreWar

inductive Expr where
  | number (value : Int64)
  | symbol (name : String)
  | binary (op : Operator) (lhs rhs : Expr)
  deriving DecidableEq

namespace Expr

def text : Expr → String
  | number value => Text.signed value
  | symbol name => name
  | binary op lhs rhs =>
    "(" ++ lhs.text ++ " " ++ String.singleton op.symbol ++ " " ++ rhs.text ++ ")"

/-- A negated number is a number again; any other expression is taken from zero. -/
def negate : Expr → Expr
  | number value => number (-value)
  | e => binary .sub (number 0) e

end Expr

end CoreWar
