import CoreWar.Expr
import CoreWar.Instruction.Basic

namespace CoreWar

structure DraftOperand where
  mode : Option Mode
  expr : Expr
  deriving DecidableEq

/-- An instruction as written: modifier, modes and second operand may be missing. -/
structure Draft where
  opcode : Opcode
  modifier : Option Modifier
  a : DraftOperand
  b : Option DraftOperand
  deriving DecidableEq

namespace Source

inductive Body where
  | instruction (draft : Draft)
  /-- `ORG`, where the program starts. -/
  | origin (expr : Expr)
  /-- `END`, after which no instruction may follow. -/
  | finish (target : Option Expr)
  /-- `EQU`, which names an expression. -/
  | equate (expr : Expr)
  deriving DecidableEq

def Body.isInstruction : Body → Bool
  | instruction _ => true
  | _ => false

structure Record where
  labels : List String
  line : Option Nat
  body : Body
  deriving DecidableEq

end Source

end CoreWar
