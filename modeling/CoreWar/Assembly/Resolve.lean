import CoreWar.Assembly.SymbolTable
import CoreWar.Instruction.Default
import CoreWar.Source.Record

namespace CoreWar

namespace SymbolTable

def resolveOperand (table : SymbolTable) (pc : Nat) (operand : DraftOperand) :
    Except SourceError Operand :=
  (table.evaluate operand.expr pc).map fun value => ⟨operand.mode.getD .direct, value⟩

def resolveOperands (table : SymbolTable) (pc : Nat) (draft : Draft) :
    Except SourceError (Operand × Operand) :=
  match draft.b, draft.opcode with
  | some b, _ => do
    let a ← table.resolveOperand pc draft.a
    let b ← table.resolveOperand pc b
    return (a, b)
  | none, .dat => (table.resolveOperand pc draft.a).map fun b => (⟨.immediate, 0⟩, b)
  | none, _ => (table.resolveOperand pc draft.a).map fun a => (a, ⟨.immediate, 0⟩)

def resolve (table : SymbolTable) (pc : Nat) (draft : Draft) : Except SourceError Instruction := do
  let (a, b) ← table.resolveOperands pc draft
  match draft.modifier <|> draft.opcode.defaultModifier? a.mode b.mode with
  | some modifier => return ⟨draft.opcode, modifier, a, b⟩
  | none => throw (.noDefaultModifier draft.opcode a.mode b.mode)

end SymbolTable

end CoreWar
