import CoreWar.Program
import CoreWar.Text.Lines

namespace CoreWar.Program

def listedMetadata (metadata : Metadata) : List String :=
  Metadata.Key.all.flatMap fun key =>
    match metadata.get key with
    | some value =>
      (Text.lines value.toList).map fun line => ";" ++ key.text ++ " " ++ String.ofList line
    | none => []

def listedOrigin (program : Program) : String := s!"        ORG {program.start}"

def listedIndex (program : Program) (index : Nat) : String :=
  (if index = program.start then ">" else " ") ++ Text.padLeft 5 ' ' (toString index) ++ "  "

def listedCode (program : Program) : List String :=
  program.code.zipIdx.map fun (insn, index) => program.listedIndex index ++ insn.text

def listing (program : Program) : String :=
  String.join ((listedMetadata program.metadata ++ [program.listedOrigin] ++ program.listedCode).map
    (· ++ "\n"))

end CoreWar.Program
