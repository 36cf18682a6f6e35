import CoreWar.Battle.Basic
import CoreWar.Command.Transcript

namespace CoreWar.Command.MatchRunner

def usage (program : String) : String :=
  "\nCore War match runner\n\nUSAGE:\n    " ++ program ++ " <warrior.red>... [OPTIONS]\n\n"
    ++ "ARGS:\n    <warrior.red>...    Redcode source files, one per warrior\n\n"
    ++ "OPTIONS:\n"
    ++ "    --preset <name>      Option preset: icws86 (default) or koth\n"
    ++ "    --seed <n>           Seed for random warrior placement\n"
    ++ "    --cycles <n>         Cycles before the match is declared a tie\n"
    ++ "    --separation <n>     Fixed distance between warriors instead of random\n"
    ++ "    --trace              Log every executed instruction\n"
    ++ "    -h, --help           Print this help message\n\n"
    ++ "ENVIRONMENT:\n"
    ++ "    REDCODE_LOG    Log level: debug, info, warn, error or off (default info)\n\n"
    ++ "EXAMPLES:\n"
    ++ "    # Dwarf against an imp with default settings\n"
    ++ "    " ++ program ++ " dwarf.red imp.red\n\n"
    ++ "    # Reproducible King of the Hill match\n"
    ++ "    " ++ program ++ " dwarf.red imp.red --preset koth --seed 42\n\n"
    ++ "    # Step-by-step trace of a short match\n"
    ++ "    " ++ program ++ " dwarf.red imp.red --cycles 20 --trace\n"

inductive Flag where
  | preset | seed | cycles | separation | trace | help
  deriving DecidableEq

def Flag.ofWord? (word : String) : Option Flag :=
  [("--preset", preset), ("--seed", seed), ("--cycles", cycles), ("--separation", separation),
    ("--trace", trace), ("--help", help), ("-h", help)].lookup word

structure Plan where
  files : List String := []
  preset : Settings := .icws86
  seed : Option Nat := none
  cycles : Option Nat := none
  separation : Option Nat := none
  trace : Bool := false

def readNumber (flag value : String) : Except Refusal Nat :=
  match Text.readNumber? UInt64.size value with
  | some n => .ok n
  | none => .error ⟨some s!"Invalid value for {flag}: '{value}' is not a valid number", false, 1⟩

def readPreset (name : String) : Except Refusal Settings :=
  match Settings.preset? name with
  | some settings => .ok settings
  | none => .error ⟨some s!"Unknown preset: '{name}' (expected icws86 or koth)", false, 1⟩

def Plan.set (plan : Plan) (flag : Flag) (word value : String) : Except Refusal Plan :=
  match flag with
  | .preset => (readPreset value).map fun preset => { plan with preset }
  | .seed => (readNumber word value).map fun seed => { plan with seed := some seed }
  | .cycles => (readNumber word value).map fun cycles => { plan with cycles := some cycles }
  | .separation =>
    (readNumber word value).map fun gap => { plan with separation := some gap }
  | .trace | .help => .ok plan

/-- Whatever is not a flag and does not look like one is a file. -/
def readArguments (plan : Plan) : List String → Except Refusal Plan
  | [] => if plan.files.isEmpty then .error ⟨some "No warriors given", true, 1⟩ else .ok plan
  | word :: words =>
    match Flag.ofWord? word with
    | some .trace => readArguments { plan with trace := true } words
    | some .help => .error .help
    | some flag =>
      match words with
      | [] => .error (.missingValue word)
      | value :: words =>
        match plan.set flag word value with
        | .ok plan => readArguments plan words
        | .error refusal => .error refusal
    | none =>
      if word.toList.head? = some '-' then .error (.unexpected word)
      else readArguments { plan with files := plan.files ++ [word] } words

def readPlan (arguments : List String) : Except Refusal Plan :=
  if arguments.isEmpty then .error .noArguments else readArguments {} arguments

/-- Single values take precedence over the preset, wherever they stand. -/
def Plan.settings (plan : Plan) : Settings :=
  { plan.preset with
    warriors := plan.files.length
    cyclesBeforeTie := plan.cycles.getD plan.preset.cyclesBeforeTie
    separation := (plan.separation.map .fixed).getD plan.preset.separation }

/-- A trace is logged whatever the threshold was. -/
def Plan.threshold (plan : Plan) (threshold : Log.Threshold) : Log.Threshold :=
  if plan.trace then some .debug else threshold

def assembleAll (files : Workspace) : List String → Option (List Program) × List Log.Line
  | [] => (some [], [])
  | path :: paths =>
    match files.assemble path with
    | (.error _, lines) => (none, lines)
    | (.ok program, lines) =>
      let (programs, more) := assembleAll files paths
      (programs.map (program :: ·), lines ++ more)

def noticeLine (notice : Notice) : Log.Line := ⟨notice.level, notice.message⟩

/-- Keeps what is to be logged of a notice. Steps are logged only for a trace. -/
def keepNotice (trace : Bool) (threshold : Log.Threshold) (seen : Array Output) (notice : Notice) :
    Array Output :=
  let isLogged := match notice with
    | .stepped _ => trace && threshold.enables notice.level
    | _ => threshold.enables notice.level
  if isLogged then seen.push (.logged (noticeLine notice)) else seen

/-- The winner goes by the name its source gives, or by its file. -/
def report (outcome : Outcome) (files : List String) (programs : List Program) : String :=
  match outcome.winner with
  | none => outcome.text ++ "\n"
  | some id =>
    let given := programs[id]?.bind (·.metadata.name)
    let name := given.getD (files.getD id "")
    s!"{outcome.status.text} ({name}) after {outcome.cycles} cycles\n"

def play (plan : Plan) (threshold : Log.Threshold) (programs : List Program) (draws : Draws) :
    Transcript :=
  match Battle.load plan.settings programs draws with
  | .error error =>
    { exit := 1
      stderr := logged threshold [⟨.error, s!"Failed to load warriors: {error.message}"⟩] }
  | .ok (battle, notices) =>
    let header : Log.Line := ⟨.info, s!"{programs.length} warriors, core size {plan.settings.coreSize}, "
      ++ s!"separation {plan.settings.separation.text}"⟩
    let (outcome, _, seen) := battle.run (keepNotice plan.trace threshold) #[]
    { exit := 0
      stdout := report outcome plan.files programs
      stderr := logged threshold (notices.map noticeLine ++ [header]) ++ seen.toList }

/-- The draws that `generator` makes from the seed. Without a seed they come from `entropy`. -/
def Plan.draws (plan : Plan) (generator : UInt64 → Draws) (entropy : Draws) : Draws :=
  match plan.seed with
  | some seed => generator seed.toUInt64
  | none => entropy

def run (files : Workspace) (generator : UInt64 → Draws) (entropy : Draws)
    (invocation : Invocation) : Transcript :=
  let (threshold, warnings) := invocation.threshold
  .after warnings <|
    match readPlan invocation.arguments with
    | .error refusal => refusal.transcript threshold (usage invocation.program)
    | .ok plan =>
      let threshold := plan.threshold threshold
      match assembleAll files plan.files with
      | (none, lines) => { exit := 1, stderr := logged threshold lines }
      | (some programs, lines) =>
        .after (logged threshold lines) (play plan threshold programs (plan.draws generator entropy))

end CoreWar.Command.MatchRunner
