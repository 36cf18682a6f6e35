import CoreWar.Command.MatchRunner
import CoreWar.Proofs.Failures
import CoreWar.Proofs.LoneInstruction
import CoreWar.Proofs.Placement

namespace CoreWar.Command.MatchRunner

structure PresetName where
  text : String
  settings : Settings
  known : Settings.preset? text = some settings

structure Numeral where
  text : String
  value : Nat
  reads : Text.readNumber? UInt64.size text = some value

structure FileName where
  text : String
  plain : text.toList.head? ≠ some '-'

inductive NumberFlag where
  | seed | cycles | separation
  deriving DecidableEq

namespace NumberFlag

def word : NumberFlag → String
  | seed => "--seed"
  | cycles => "--cycles"
  | separation => "--separation"

def toFlag : NumberFlag → Flag
  | seed => .seed
  | cycles => .cycles
  | separation => .separation

theorem ofWord?_word (flag : NumberFlag) : Flag.ofWord? flag.word = some flag.toFlag := by
  cases flag <;> rfl

end NumberFlag

inductive Argument where
  | preset (name : PresetName)
  | number (flag : NumberFlag) (numeral : Numeral)
  | trace
  | file (name : FileName)

namespace Argument

def words : Argument → List String
  | preset name => ["--preset", name.text]
  | number flag numeral => [flag.word, numeral.text]
  | trace => ["--trace"]
  | file name => [name.text]

def preset? : Argument → Option Settings
  | preset name => some name.settings
  | _ => none

def number? (flag : NumberFlag) : Argument → Option Nat
  | number other numeral => if other = flag then some numeral.value else none
  | _ => none

def file? : Argument → Option String
  | file name => some name.text
  | _ => none

def isTrace : Argument → Bool
  | trace => true
  | _ => false

end Argument

def lastValue {α : Type} (value? : Argument → Option α) (arguments : List Argument) : Option α :=
  arguments.reverse.findSome? value?

def fileNames (arguments : List Argument) : List String := arguments.filterMap Argument.file?

def asksTrace (arguments : List Argument) : Bool := arguments.any Argument.isTrace

theorem lastValue_concat {α : Type} (value? : Argument → Option α) (arguments : List Argument)
    (last : Argument) :
    lastValue value? (arguments ++ [last]) = (value? last).or (lastValue value? arguments) := by
  rw [lastValue, List.reverse_concat, List.findSome?_cons, lastValue]
  cases value? last <;> rfl

def planOf (arguments : List Argument) : Plan where
  files := fileNames arguments
  preset := (lastValue Argument.preset? arguments).getD .icws86
  seed := lastValue (Argument.number? .seed) arguments
  cycles := lastValue (Argument.number? .cycles) arguments
  separation := lastValue (Argument.number? .separation) arguments
  trace := asksTrace arguments

def Plan.take (plan : Plan) : Argument → Plan
  | .preset name => { plan with preset := name.settings }
  | .number .seed numeral => { plan with seed := some numeral.value }
  | .number .cycles numeral => { plan with cycles := some numeral.value }
  | .number .separation numeral => { plan with separation := some numeral.value }
  | .trace => { plan with trace := true }
  | .file name => { plan with files := plan.files ++ [name.text] }

theorem planOf_concat (arguments : List Argument) (last : Argument) :
    planOf (arguments ++ [last]) = (planOf arguments).take last := by
  simp only [planOf, lastValue_concat, fileNames, asksTrace, List.filterMap_append, List.any_append]
  cases last with
  | preset name | trace | file name =>
    simp [Plan.take, Argument.preset?, Argument.number?, Argument.file?, Argument.isTrace]
  | number flag numeral =>
    cases flag <;>
      simp [Plan.take, Argument.preset?, Argument.number?, Argument.file?, Argument.isTrace]

theorem foldl_take (past arguments : List Argument) :
    arguments.foldl Plan.take (planOf past) = planOf (past ++ arguments) := by
  induction arguments generalizing past with
  | nil => rw [List.append_nil, List.foldl_nil]
  | cons argument arguments ih =>
    rw [List.foldl_cons, ← planOf_concat, ih, List.append_assoc, List.singleton_append]

theorem head?_of_ofWord? {word : String} {flag : Flag} (h : Flag.ofWord? word = some flag) :
    word.toList.head? = some '-' := by
  obtain ⟨before, after, hlist, _⟩ := List.lookup_eq_some_iff.mp h
  have hmem : (word, flag) ∈ before ++ (word, flag) :: after := by simp
  rw [← hlist] at hmem
  exact of_decide_eq_true ((List.all_eq_true
    (p := fun entry : String × Flag => entry.1.toList.head? = some '-')).mp (by decide) _ hmem)

theorem FileName.ofWord?_eq_none (name : FileName) : Flag.ofWord? name.text = none := by
  cases h : Flag.ofWord? name.text with
  | none => rfl
  | some flag => exact absurd (head?_of_ofWord? h) name.plain

theorem Plan.set_preset (plan : Plan) (name : PresetName) (word : String) :
    plan.set .preset word name.text = .ok (plan.take (.preset name)) := by
  rw [Plan.set, readPreset, name.known]
  rfl

theorem Plan.set_number (plan : Plan) (flag : NumberFlag) (numeral : Numeral) (word : String) :
    plan.set flag.toFlag word numeral.text = .ok (plan.take (.number flag numeral)) := by
  have hread : readNumber word numeral.text = .ok numeral.value := by rw [readNumber, numeral.reads]
  cases flag <;> rw [NumberFlag.toFlag, Plan.set, hread] <;> rfl

theorem readArguments_flag {plan next : Plan} {flag : Flag} {word value : String}
    (hflag : Flag.ofWord? word = some flag) (htrace : flag ≠ .trace) (hhelp : flag ≠ .help)
    (hset : plan.set flag word value = .ok next) (rest : List String) :
    readArguments plan (word :: value :: rest) = readArguments next rest := by
  rw [readArguments]
  cases flag with
  | trace => exact absurd rfl htrace
  | help => exact absurd rfl hhelp
  | preset | seed | cycles | separation => simp only [hflag, hset]

/-- An argument takes its own words, whatever comes after them. -/
theorem readArguments_words (plan : Plan) (argument : Argument) (rest : List String) :
    readArguments plan (argument.words ++ rest) = readArguments (plan.take argument) rest := by
  cases argument with
  | preset name =>
    exact readArguments_flag rfl (by decide) (by decide) (plan.set_preset name "--preset") rest
  | number flag numeral =>
    have htrace : flag.toFlag ≠ .trace := by cases flag <;> decide
    have hhelp : flag.toFlag ≠ .help := by cases flag <;> decide
    exact readArguments_flag flag.ofWord?_word htrace hhelp
      (plan.set_number flag numeral flag.word) rest
  | trace => rfl
  | file name =>
    simp only [Argument.words, List.singleton_append, readArguments, name.ofWord?_eq_none,
      if_neg name.plain]
    rfl

theorem readArguments_flatMap_words (plan : Plan) (arguments : List Argument) :
    readArguments plan (arguments.flatMap Argument.words) =
      readArguments (arguments.foldl Plan.take plan) [] := by
  induction arguments generalizing plan with
  | nil => rfl
  | cons argument arguments ih =>
    rw [List.flatMap_cons, readArguments_words, ih, List.foldl_cons]

theorem readPlan_words {arguments : List Argument} (h : fileNames arguments ≠ []) :
    readPlan (arguments.flatMap Argument.words) = .ok (planOf arguments) := by
  have hread : readArguments {} (arguments.flatMap Argument.words) = .ok (planOf arguments) := by
    have hplan : arguments.foldl Plan.take {} = planOf arguments := foldl_take [] arguments
    have hfiles : (planOf arguments).files.isEmpty = false := by simpa [planOf] using h
    rw [readArguments_flatMap_words, hplan, readArguments, hfiles]
    rfl
  have hwords : (arguments.flatMap Argument.words).isEmpty = false := by
    rw [List.isEmpty_eq_false_iff]
    intro hnil
    rw [hnil] at hread
    cases hread
  rw [readPlan, hwords]
  exact hread

/-- The same files in the same order, a trace in both or in none, and the same last values. -/
structure AskTheSame (first second : List Argument) : Prop where
  files : fileNames first = fileNames second
  trace : asksTrace first = asksTrace second
  preset : lastValue Argument.preset? first = lastValue Argument.preset? second
  number : ∀ flag, lastValue (Argument.number? flag) first = lastValue (Argument.number? flag) second

theorem AskTheSame.refl (arguments : List Argument) : AskTheSame arguments arguments :=
  ⟨rfl, rfl, rfl, fun _ => rfl⟩

theorem AskTheSame.planOf_eq {first second : List Argument} (h : AskTheSame first second) :
    planOf first = planOf second := by
  simp only [planOf, h.files, h.trace, h.preset, h.number]

/-- The settings of the last preset, with the last single values in place of its own. -/
def settingsOf (arguments : List Argument) : Settings :=
  let preset := (lastValue Argument.preset? arguments).getD .icws86
  { preset with
    warriors := (fileNames arguments).length
    cyclesBeforeTie :=
      (lastValue (Argument.number? .cycles) arguments).getD preset.cyclesBeforeTie
    separation :=
      ((lastValue (Argument.number? .separation) arguments).map .fixed).getD preset.separation }

theorem play_eq_of_load_eq {plan : Plan} {programs : List Program} {one other : Draws}
    (h : Battle.load plan.settings programs one = Battle.load plan.settings programs other)
    (threshold : Log.Threshold) :
    play plan threshold programs one = play plan threshold programs other := by
  rw [play, play, h]

theorem exit_play_eq_zero_iff {plan : Plan} {programs : List Program} {draws : Draws}
    (threshold : Log.Threshold) : (play plan threshold programs draws).exit = 0 ↔
      ∃ loaded, Battle.load plan.settings programs draws = .ok loaded := by
  rw [play]
  cases Battle.load plan.settings programs draws with
  | error error => exact iff_of_false (by simp) (by simp)
  | ok loaded => exact iff_of_true rfl ⟨loaded, rfl⟩

/-- Both runs or none are successful, and they are the same if they are not. -/
def SameFailure (one other : Transcript) : Prop :=
  one.exit = other.exit ∧ (one.exit ≠ 0 → one = other)

theorem SameFailure.of_eq {one other : Transcript} (h : one = other) : SameFailure one other :=
  ⟨congrArg Transcript.exit h, fun _ => h⟩

theorem SameFailure.after {one other : Transcript} (h : SameFailure one other)
    (output : List Output) : SameFailure (.after output one) (.after output other) :=
  ⟨h.1, fun hne => congrArg (Transcript.after output) (h.2 hne)⟩

theorem sameFailure_play {plan : Plan} {one other : Draws} (hone : plan.settings.DrawsEnd one)
    (hother : plan.settings.DrawsEnd other) (threshold : Log.Threshold) (programs : List Program) :
    SameFailure (play plan threshold programs one) (play plan threshold programs other) := by
  cases hload : Battle.load plan.settings programs one with
  | error error =>
    have hagain := Battle.load_eq_error_of_drawsEnd hone hother hload
    exact .of_eq (play_eq_of_load_eq (hload.trans hagain.symm) threshold)
  | ok loaded =>
    have hexit := (exit_play_eq_zero_iff threshold).mpr ⟨loaded, hload⟩
    refine ⟨?_, fun hne => absurd hexit hne⟩
    cases hagain : Battle.load plan.settings programs other with
    | error error =>
      rw [Battle.load_eq_error_of_drawsEnd hother hone hagain] at hload
      cases hload
    | ok again =>
      rw [hexit, (exit_play_eq_zero_iff threshold).mpr ⟨again, hagain⟩]

section

variable {first second : List String} {plan : Plan} {generator : UInt64 → Draws}
  {entropy other : Draws}

/-- Two runs of a plan differ at most by the matches they play. -/
theorem run_of_play {R : Transcript → Transcript → Prop}
    (hrefl : ∀ transcript, R transcript transcript)
    (hafter : ∀ output {one other}, R one other → R (.after output one) (.after output other))
    (hfirst : readPlan first = .ok plan) (hsecond : readPlan second = .ok plan)
    (hplay : ∀ threshold programs, R (play plan threshold programs (plan.draws generator entropy))
      (play plan threshold programs (plan.draws generator other)))
    (files : Workspace) (program : String) (logSetting : Option String) :
    R (run files generator entropy ⟨program, first, logSetting⟩)
      (run files generator other ⟨program, second, logSetting⟩) := by
  simp only [run, hfirst, hsecond, Invocation.threshold]
  apply hafter
  obtain ⟨_ | programs, lines⟩ := assembleAll files plan.files
  · exact hrefl _
  · exact hafter _ (hplay _ programs)

theorem run_eq_of_determined (hfirst : readPlan first = .ok plan)
    (hsecond : readPlan second = .ok plan)
    (h : plan.seed.isSome ∨ plan.settings.separation ≠ .random ∨ plan.files.length = 1 ∨
      entropy = other) (files : Workspace) (program : String) (logSetting : Option String) :
    run files generator entropy ⟨program, first, logSetting⟩ =
      run files generator other ⟨program, second, logSetting⟩ := by
  refine run_of_play (fun _ => rfl) (fun output _ _ => congrArg (Transcript.after output)) hfirst
    hsecond ?_ files program logSetting
  intro threshold programs
  have hundrawn (hu : plan.settings.separation ≠ .random ∨ plan.settings.warriors ≤ 1) :=
    Battle.load_eq_of_placements_eq (Settings.placements_eq_of_undrawn hu
      (plan.draws generator entropy) (plan.draws generator other)) programs
  obtain hseed | hfixed | hlone | rfl := h
  · obtain ⟨seed, hseed⟩ := Option.isSome_iff_exists.mp hseed
    simp only [Plan.draws, hseed]
  · exact play_eq_of_load_eq (hundrawn (.inl hfixed)) threshold
  · exact play_eq_of_load_eq (hundrawn (.inr (Nat.le_of_eq hlone))) threshold
  · rfl

theorem sameFailure_run (hfirst : readPlan first = .ok plan) (hsecond : readPlan second = .ok plan)
    (hentropy : plan.settings.DrawsEnd entropy) (hother : plan.settings.DrawsEnd other)
    (files : Workspace) (program : String) (logSetting : Option String) :
    SameFailure (run files generator entropy ⟨program, first, logSetting⟩)
      (run files generator other ⟨program, second, logSetting⟩) := by
  cases hseed : plan.seed with
  | some seed =>
    exact .of_eq (run_eq_of_determined hfirst hsecond (.inl (Option.isSome_of_eq_some hseed)) files
      program logSetting)
  | none =>
    refine run_of_play (fun _ => .of_eq rfl) (fun output _ _ h => h.after output) hfirst hsecond ?_
      files program logSetting
    intro threshold programs
    simp only [Plan.draws, hseed]
    exact sameFailure_play hentropy hother threshold programs

end

/-- Arguments that ask for the same make the same plan, in whatever order their flags stand: a single
value counts before and after a preset, and no value is taken for a file. Their runs are the same as
well, though each has an entropy of its own, if there is a seed, a fixed separation or a single file;
and in any case if they fail. -/
theorem run_eq_of_askTheSame {first second : List Argument} (hfile : fileNames first ≠ [])
    (h : AskTheSame first second) :
    (∃ plan, readPlan (first.flatMap Argument.words) = .ok plan ∧
      readPlan (second.flatMap Argument.words) = .ok plan ∧
      plan.files = fileNames first ∧ plan.settings = settingsOf first ∧
      plan.seed = lastValue (Argument.number? .seed) first ∧ plan.trace = asksTrace first) ∧
    ∀ (files : Workspace) (generator : UInt64 → Draws) (entropy other : Draws) (program : String)
        (logSetting : Option String),
      ((lastValue (Argument.number? .seed) first).isSome ∨
          (settingsOf first).separation ≠ .random ∨ (fileNames first).length = 1 ∨ entropy = other →
        run files generator entropy ⟨program, first.flatMap Argument.words, logSetting⟩ =
          run files generator other ⟨program, second.flatMap Argument.words, logSetting⟩) ∧
      ((settingsOf first).DrawsEnd entropy → (settingsOf first).DrawsEnd other →
        SameFailure
          (run files generator entropy ⟨program, first.flatMap Argument.words, logSetting⟩)
          (run files generator other ⟨program, second.flatMap Argument.words, logSetting⟩)) := by
  have hfirst := readPlan_words hfile
  have hsecond : readPlan (second.flatMap Argument.words) = .ok (planOf first) := by
    rw [h.files] at hfile
    rw [h.planOf_eq]
    exact readPlan_words hfile
  have hsettings : (planOf first).settings = settingsOf first := rfl
  refine ⟨⟨planOf first, hfirst, hsecond, rfl, hsettings, rfl, rfl⟩, ?_⟩
  rw [← hsettings]
  intro files generator entropy other program logSetting
  exact ⟨fun hdetermined => run_eq_of_determined hfirst hsecond hdetermined files program logSetting,
    fun hentropy hother => sameFailure_run hfirst hsecond hentropy hother files program logSetting⟩

def leadingPreset : List Argument :=
  [.preset ⟨"koth", .koth, by decide⟩, .file ⟨"a.red", by decide⟩,
    .number .seed ⟨"7", 7, by decide⟩, .number .cycles ⟨"9", 9, by decide⟩, .trace,
    .file ⟨"b.red", by decide⟩, .number .seed ⟨"42", 42, by decide⟩]

/-- The same request with two presets after the number of cycles, and numbers written otherwise. -/
def trailingPreset : List Argument :=
  [.number .cycles ⟨"009", 9, by decide⟩, .trace, .number .seed ⟨"+42", 42, by decide⟩,
    .file ⟨"a.red", by decide⟩, .preset ⟨"icws86", .icws86, by decide⟩,
    .file ⟨"b.red", by decide⟩, .trace, .preset ⟨"KotH", .koth, by decide⟩]

def twoFiles : List Argument := [.file ⟨"a.red", by decide⟩, .file ⟨"b.red", by decide⟩]

theorem run_eq_of_askTheSame_presets :
    fileNames leadingPreset = ["a.red", "b.red"] ∧ AskTheSame leadingPreset trailingPreset ∧
    (settingsOf leadingPreset).cyclesBeforeTie = 9 ∧ (settingsOf leadingPreset).coreSize = 8000 ∧
    (lastValue (Argument.number? .seed) leadingPreset).isSome ∧
    ∀ (files : Workspace) (logSetting : Option String),
      run files ChaCha.draws (fun _ => 0) ⟨"redcode", ["--preset", "koth", "a.red", "--seed", "7",
        "--cycles", "9", "--trace", "b.red", "--seed", "42"], logSetting⟩ =
      run files ChaCha.draws (fun _ => 1) ⟨"redcode", ["--cycles", "009", "--trace", "--seed", "+42",
        "a.red", "--preset", "icws86", "b.red", "--trace", "--preset", "KotH"], logSetting⟩ ∧
      SameFailure (run files ChaCha.draws (fun _ => 0) ⟨"redcode", ["a.red", "b.red"], logSetting⟩)
        (run files ChaCha.draws (fun _ => 1) ⟨"redcode", ["a.red", "b.red"], logSetting⟩) := by
  have hfile : fileNames leadingPreset ≠ [] := List.cons_ne_nil _ _
  have hsame : AskTheSame leadingPreset trailingPreset :=
    ⟨rfl, rfl, rfl, fun flag => by cases flag <;> rfl⟩
  have hpair : fileNames twoFiles ≠ [] := List.cons_ne_nil _ _
  have hzero : (settingsOf twoFiles).DrawsEnd fun _ => 0 :=
    fun _ _ => ⟨0, by decide, by decide, trivial⟩
  have hone : (settingsOf twoFiles).DrawsEnd fun _ => 1 :=
    fun _ _ => ⟨0, by decide, by decide, trivial⟩
  refine ⟨rfl, hsame, rfl, rfl, rfl, ?_⟩
  intro files logSetting
  have hseeded := (run_eq_of_askTheSame hfile hsame).2 files ChaCha.draws (fun _ => 0) (fun _ => 1)
    "redcode" logSetting
  have hunseeded := (run_eq_of_askTheSame hpair (AskTheSame.refl twoFiles)).2 files ChaCha.draws
    (fun _ => 0) (fun _ => 1) "redcode" logSetting
  exact ⟨hseeded.1 (.inl rfl), hunseeded.2 hzero hone⟩

theorem exists_stderr_play {plan : Plan} {programs : List Program} {draws : Draws} {battle : Battle}
    {notices : List Notice}
    (h : Battle.load plan.settings programs draws = .ok (battle, notices))
    (threshold : Log.Threshold) :
    ∃ more, (play plan threshold programs draws).stderr =
      logged threshold (notices.map noticeLine) ++ more := by
  rw [play, h]
  simp only [logged, List.filter_append, List.map_append, List.append_assoc]
  exact ⟨_, rfl⟩

def dudSource : String := "dat #0"

theorem assemble_dudSource : Program.assemble dudSource = .ok .dud := by
  have hopens : Source.OpensWith .dat dudSource.toList :=
    ⟨[], ['d', 'a', 't'], [' ', '#', '0'], by decide, by simp, by decide +kernel,
      Source.atEdge_cons (by decide) _⟩
  have hscan : Source.scan 1 dudSource.toList =
      .ok [⟨.word "dat", 1⟩, ⟨.sigil .immediate, 5⟩, ⟨.number 0, 6⟩] := by decide +kernel
  have hzero : Source.OperandForm [.sigil .immediate, .number 0] ⟨some .immediate, .number 0⟩ :=
    .sigil .immediate (.term (.factor (.primary (.literal (by decide)))))
  have hread : Source.readDraftText dudSource =
      .ok ⟨.dat, none, ⟨some .immediate, .number 0⟩, none⟩ := by
    rw [Source.readDraftText_eq_ok_iff, Source.readInstruction_eq_ok_iff]
    exact ⟨_, hscan, .instruction (by decide +kernel) (.lone .absent hzero)⟩
  have hvalue : SymbolTable.evaluate {} (.number 0) 0 = .ok 0 :=
    SymbolTable.evaluate_eq_ok_iff.mpr (.number 0)
  have hresolve : SymbolTable.resolve {} 0 ⟨.dat, none, ⟨some .immediate, .number 0⟩, none⟩ =
      .ok .empty := by
    simp only [SymbolTable.resolve, SymbolTable.resolveOperands, SymbolTable.resolveOperand, hvalue]
    rfl
  rw [hopens.assemble_eq (by decide), hread]
  simp only [bind, Except.bind, hresolve]
  rfl

def duds : Workspace := .ofAnswers (fun _ => .ok dudSource.toUTF8) fun _ => true

theorem assembleAll_duds (paths : List String) :
    assembleAll duds paths = (some (paths.map fun _ => .dud), []) := by
  have hread : ∀ path, duds.readText path = .ok dudSource :=
    fun path => Workspace.readText_of_text rfl
  induction paths with
  | nil => rfl
  | cons path paths ih =>
    simp only [assembleAll, Workspace.assemble, hread, assemble_dudSource, ih]
    rfl

theorem exists_load_duds {draws : Draws} {extra : Nat}
    (h : draws.uniform 7592 0 = some (extra, 1)) :
    ∃ battle, Battle.load .icws86 [.dud, .dud] draws =
      .ok (battle, [.loading 0 none 0, .loading 1 none (300 + extra)]) := by
  have hvalid : Settings.icws86.validate.mapError BattleError.invalidSettings = .ok () := rfl
  have hprograms : checkPrograms .icws86 [.dud, .dud] = .ok () := rfl
  have hplaced : placements .icws86 draws = .ok [0, 300 + extra] := by
    rw [Settings.placements_random _ (by decide) rfl]
    change (randomOffsets draws 300 7592 1 0 0).map (0 :: ·) = _
    simp only [randomOffsets, h, Nat.zero_add]
    rfl
  exact ⟨_, check_eq_ok_iff.mpr ⟨hvalid, check_eq_ok_iff.mpr ⟨hprograms,
    bind_eq_ok_iff.mpr ⟨_, hplaced, rfl⟩⟩⟩⟩

theorem stderr_run_duds {entropy : Draws} {extra : Nat}
    (h : entropy.uniform 7592 0 = some (extra, 1)) :
    (run duds ChaCha.draws entropy ⟨"redcode", ["a.red", "b.red"], none⟩).stderr[1]? =
      some (.logged ⟨.info, s!"loading warrior 1 at {300 + extra}"⟩) := by
  let plan : Plan := { files := ["a.red", "b.red"] }
  have hplan : readPlan ["a.red", "b.red"] = .ok plan := rfl
  obtain ⟨battle, hload⟩ := exists_load_duds h
  have hloaded : Battle.load plan.settings [.dud, .dud] entropy = .ok _ := hload
  obtain ⟨more, hmore⟩ := exists_stderr_play hloaded .standard
  rw [run_of_programs hplan (assembleAll_duds _)]
  exact (congrArg (·[1]?) hmore).trans rfl

/-- Two runs without a seed, of the same arguments, load the second warrior at different places. -/
theorem unseeded_runs_differ :
    AskTheSame twoFiles twoFiles ∧ twoFiles.flatMap Argument.words = ["a.red", "b.red"] ∧
    (run duds ChaCha.draws (fun _ => 0) ⟨"redcode", ["a.red", "b.red"], none⟩).stderr[1]? =
      some (.logged ⟨.info, "loading warrior 1 at 300"⟩) ∧
    (run duds ChaCha.draws (fun _ => 1) ⟨"redcode", ["a.red", "b.red"], none⟩).stderr[1]? =
      some (.logged ⟨.info, "loading warrior 1 at 301"⟩) ∧
    run duds ChaCha.draws (fun _ => 0) ⟨"redcode", ["a.red", "b.red"], none⟩ ≠
      run duds ChaCha.draws (fun _ => 1) ⟨"redcode", ["a.red", "b.red"], none⟩ := by
  have hzero : Draws.uniform (fun _ => 0) 7592 0 = some (0, 1) := by
    rw [Draws.uniform, if_neg (by decide), Draws.firstBelow, if_pos (by decide)]
    rfl
  have hone : Draws.uniform (fun _ => 1) 7592 0 = some (1, 1) := by
    rw [Draws.uniform, if_neg (by decide), Draws.firstBelow, if_pos (by decide)]
    rfl
  refine ⟨.refl twoFiles, rfl, stderr_run_duds hzero, stderr_run_duds hone, ?_⟩
  intro hsame
  have hlines := stderr_run_duds hzero
  rw [hsame, stderr_run_duds hone] at hlines
  exact absurd hlines (by decide)

end CoreWar.Command.MatchRunner
