import CoreWar.Assembly.Resolve
import CoreWar.Program
import CoreWar.Source.Document

namespace CoreWar

namespace Source

/-- What the labels of a record stand for when the next instruction has address `pc`. -/
def Body.symbol (pc : Nat) : Body → Symbol
  | equate expr => .equate expr
  | _ => .address pc

def collectSymbols (pc : Nat) (table : SymbolTable) :
    List Record → Except SourceError SymbolTable
  | [] => .ok table
  | ⟨labels, line, body⟩ :: records =>
    match labels.foldlM (fun table label => table.define label (body.symbol pc)) table with
    | .error error => .error (error.locate line)
    | .ok table => collectSymbols (if body.isInstruction then pc + 1 else pc) table records

def refuseInstructions : List Record → Except SourceError Unit
  | [] => .ok ()
  | ⟨_, line, body⟩ :: records =>
    if body.isInstruction then
      .error (SourceError.instructionAfterEnd.locate line)
    else
      refuseInstructions records

/-- The instructions of records of which the first has address `pc`, and where the program
starts. `start` is what the records before say of the start. The target of `END` comes before any
`ORG`, and of these the last one counts. -/
def assembleFrom (table : SymbolTable) (pc : Nat) (start : Option Int64) :
    List Record → Except SourceError (List Instruction × Option Int64)
  | [] => .ok ([], start)
  | ⟨_, line, .instruction draft⟩ :: records => do
    let insn ← (table.resolve pc draft).mapError (·.locate line)
    let (code, start) ← assembleFrom table (pc + 1) start records
    return (insn :: code, start)
  | ⟨_, line, .origin expr⟩ :: records => do
    let value ← (table.evaluate expr 0).mapError (·.locate line)
    assembleFrom table pc (some value) records
  | ⟨_, _, .equate _⟩ :: records => assembleFrom table pc start records
  | ⟨_, _, .finish none⟩ :: records => do
    refuseInstructions records
    return ([], start)
  | ⟨_, line, .finish (some expr)⟩ :: records => do
    let value ← (table.evaluate expr 0).mapError (·.locate line)
    refuseInstructions records
    return ([], some value)

def assembleRecords (records : List Record) : Except SourceError Program := do
  let table ← collectSymbols 0 {} records
  let (code, start) ← assembleFrom table 0 none records
  Program.ofCode code (start.getD 0)

end Source

def Instruction.assemble (text : String) : Except SourceError Instruction := do
  SymbolTable.resolve {} 0 (← Source.readDraftText text)

def Program.assemble (source : String) : Except SourceError Program := do
  let document ← Source.Document.read source
  let program ← Source.assembleRecords document.records
  return { program with metadata := document.metadata }

end CoreWar
