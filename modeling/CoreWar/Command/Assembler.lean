import CoreWar.Assembly.Listing
import CoreWar.Command.Transcript

namespace CoreWar.Command.Assembler

def usage (program : String) : String :=
  "\nRedcode Assembler\n\nUSAGE:\n    " ++ program ++ " <warrior.red> [OPTIONS]\n\n"
    ++ "ARGS:\n    <warrior.red>    Redcode source file to assemble\n\n"
    ++ "OPTIONS:\n"
    ++ "    -o, --output <file>    Write the listing to a file instead of stdout\n"
    ++ "    -q, --quiet            Only check that the warrior assembles\n"
    ++ "    -h, --help             Print this help message\n\n"
    ++ "EXAMPLES:\n"
    ++ "    # Print the listing\n"
    ++ "    " ++ program ++ " dwarf.red\n\n"
    ++ "    # Save the listing\n"
    ++ "    " ++ program ++ " dwarf.red -o dwarf.lst\n"

inductive Flag where
  | output | quiet
  deriving DecidableEq

def Flag.ofWord? (word : String) : Option Flag :=
  [("--output", output), ("-o", output), ("--quiet", quiet), ("-q", quiet)].lookup word

structure Plan where
  input : String
  output : Option String := none
  quiet : Bool := false

def readFlags (plan : Plan) : List String → Except Refusal Plan
  | [] => .ok plan
  | word :: words =>
    match Flag.ofWord? word with
    | none => .error (.unexpected word)
    | some .quiet => readFlags { plan with quiet := true } words
    | some .output =>
      match words with
      | [] => .error (.missingValue word)
      | path :: words => readFlags { plan with output := some path } words

/-- The first argument is the input, unless it asks for help. -/
def readPlan : List String → Except Refusal Plan
  | [] => .error .noArguments
  | input :: words =>
    if input == "--help" || input == "-h" then .error .help else readFlags { input } words

def fail (threshold : Log.Threshold) (message : String) : Transcript :=
  { exit := 1, stderr := logged threshold [⟨.error, message⟩] }

def deliver (plan : Plan) (threshold : Log.Threshold) (program : Program) : Ending :=
  if plan.quiet then
    let line : Log.Line := ⟨.info, s!"{plan.input}: {program.length} instructions"⟩
    .done { exit := 0, stderr := logged threshold [line] }
  else
    match plan.output with
    | none => .done { exit := 0, stdout := program.listing }
    | some path =>
      .writing path program.listing fun
        | some fault => fail threshold s!"Failed to write output file: {fault.message}"
        | none =>
          let line : Log.Line :=
            ⟨.info, s!"Assembled {plan.input} -> {path} ({program.length} instructions)"⟩
          { exit := 0, stderr := logged threshold [line] }

def assemble (files : Workspace) (plan : Plan) (threshold : Log.Threshold) : Ending :=
  if !files.contains plan.input then
    .done (fail threshold s!"Input file does not exist: {plan.input}")
  else
    match files.assemble plan.input with
    | (.error _, lines) => .done { exit := 1, stderr := logged threshold lines }
    | (.ok program, _) => deliver plan threshold program

def after (output : List Output) : Ending → Ending
  | .done transcript => .done (.after output transcript)
  | .writing path text reply => .writing path text fun fault => .after output (reply fault)

def run (files : Workspace) (invocation : Invocation) : Ending :=
  let (threshold, warnings) := invocation.threshold
  after warnings <|
    match readPlan invocation.arguments with
    | .error refusal => .done (refusal.transcript threshold (usage invocation.program))
    | .ok plan => assemble files plan threshold

end CoreWar.Command.Assembler
