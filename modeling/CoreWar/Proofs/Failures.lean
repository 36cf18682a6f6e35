import CoreWar.Command.Assembler
import CoreWar.Command.MatchRunner
import CoreWar.Proofs.Locations
import CoreWar.Random.ChaCha

namespace CoreWar

namespace SourceError

def statement : SourceError → String
  | malformed _ _ fault => fault.message
  | error => error.root.message

theorem message_of_location? {texts : List (List Char)} {error : SourceError} {location : Location}
    (h : error.location? texts = some location) : location.message = error.statement := by
  cases error with
  | malformed | atLine =>
    cases h
    rfl
  | _ => cases h

theorem message_of_location?_none {texts : List (List Char)} {error : SourceError}
    (h : error.location? texts = none) : error.message = error.statement := by
  cases error with
  | malformed | atLine => cases h
  | _ => rfl

theorem exists_diagnostic_eq (file source : String) (error : SourceError) :
    ∃ more, error.diagnostic file source = "error: " ++ error.statement ++ "\n" ++ more := by
  cases h : error.location? (Text.lines source.toList) with
  | none =>
    refine ⟨"", ?_⟩
    simp only [diagnostic, h, message_of_location?_none h, toString, String.append_empty]
  | some location =>
    have harrow : "\n --> " = "\n" ++ " --> " := rfl
    simp only [diagnostic, h, ← message_of_location? h, toString, harrow, String.append_assoc]
    exact ⟨_, rfl⟩

end SourceError

/-- The line is an error and says what is wrong. -/
def Log.Line.Reports (line : Log.Line) (error : SourceError) : Prop :=
  line.level = .error ∧ ∃ more, line.message = "error: " ++ error.statement ++ "\n" ++ more

namespace Command

namespace Workspace

/-- A file cannot be read, and nothing is logged; it can be read and does not assemble, and one line is
logged; or it gives a program. -/
theorem assemble_cases (files : Workspace) (path : String) :
    (∃ fault, files.readText path = .error fault ∧
      files.assemble path = (.error (.unreadable path fault), [])) ∨
    (∃ source error, files.readText path = .ok source ∧
      files.assemble path = (.error error, [⟨.error, error.diagnostic path source⟩])) ∨
    ∃ source program, files.readText path = .ok source ∧
      files.assemble path = (.ok program, []) := by
  unfold assemble
  cases hread : files.readText path with
  | error fault => exact .inl ⟨fault, rfl, rfl⟩
  | ok source =>
    dsimp only
    cases Program.assemble source with
    | error error => exact .inr (.inl ⟨source, error, rfl, rfl⟩)
    | ok program => exact .inr (.inr ⟨source, program, rfl, rfl⟩)

theorem lines_of_assemble_ok {files : Workspace} {path : String} {program : Program}
    {lines : List Log.Line} (h : files.assemble path = (.ok program, lines)) : lines = [] := by
  obtain ⟨_, _, ha⟩ | ⟨_, _, _, ha⟩ | ⟨_, _, _, ha⟩ := files.assemble_cases path
  · rw [ha] at h
    cases h
  · rw [ha] at h
    cases h
  · rw [ha] at h
    cases h
    rfl

theorem exists_reports_iff {files : Workspace} {path : String} {error : SourceError}
    {lines : List Log.Line} (h : files.assemble path = (.error error, lines)) :
    (∃ line ∈ lines, line.Reports error) ↔ ¬ ∃ fault, files.readText path = .error fault := by
  obtain ⟨fault, hread, ha⟩ | ⟨source, cause, hread, ha⟩ | ⟨_, _, _, ha⟩ := files.assemble_cases path
  · rw [ha] at h
    cases h
    simp [hread]
  · rw [ha] at h
    cases h
    exact iff_of_true ⟨_, List.mem_singleton_self _, rfl, SourceError.exists_diagnostic_eq _ _ _⟩
      (by simp [hread])
  · rw [ha] at h
    cases h

end Workspace

theorem Output.text_logged_ne_empty (line : Log.Line) (style : Log.Style) (stamp : Option Stamp) :
    (Output.logged line).text style stamp ≠ "" := by
  rw [text, Log.Line.text]
  by_cases hcolor : style.color = true
  · simp [hcolor, String.append_eq_empty_iff]
  · simp [hcolor, String.append_eq_empty_iff]

namespace Transcript

theorem errors_eq_empty {transcript : Transcript} (h : transcript.stderr = [])
    (style : Log.Style) : transcript.errors style = "" := by
  rw [errors, h]
  rfl

theorem errors_ne_empty {transcript : Transcript} {output : Output} {style : Log.Style}
    (hmem : output ∈ transcript.stderr) (htext : output.text style none ≠ "") :
    transcript.errors style ≠ "" := by
  intro hempty
  rw [errors, ← String.toList_eq_nil_iff, String.toList_join, List.flatMap_eq_nil_iff] at hempty
  exact htext (String.toList_eq_nil_iff.mp (hempty _ (List.mem_map_of_mem hmem)))

end Transcript

theorem errors_ne_empty_of_logged {threshold : Log.Threshold} (h : threshold.enables .error = true)
    (exit : UInt32) (message : String) (style : Log.Style) :
    ({ exit, stderr := logged threshold [⟨.error, message⟩] } : Transcript).errors style ≠ "" := by
  apply Transcript.errors_ne_empty _ (Output.text_logged_ne_empty ⟨.error, message⟩ style none)
  simp [logged, h]

namespace Refusal

def Speaks (refusal : Refusal) : Prop := refusal.message.isSome ∨ refusal.showsUsage = true

theorem Speaks.errors_ne_empty {refusal : Refusal} (hr : refusal.Speaks) {threshold : Log.Threshold}
    (h : threshold.enables .error = true) (usage : String) (style : Log.Style) :
    (refusal.transcript threshold usage).errors style ≠ "" := by
  obtain hmessage | husage := hr
  · obtain ⟨message, hm⟩ := Option.isSome_iff_exists.mp hmessage
    apply Transcript.errors_ne_empty _ (Output.text_logged_ne_empty ⟨.error, message⟩ style none)
    simp [transcript, hm, logged, h]
  · have hmem : Output.printed (usage ++ "\n") ∈ (refusal.transcript threshold usage).stderr := by
      simp [transcript, husage]
    exact Transcript.errors_ne_empty hmem (by simp [Output.text, String.append_eq_empty_iff])

end Refusal

namespace MatchRunner

theorem Plan.set_speaks {plan : Plan} {flag : Flag} {word value : String} {refusal : Refusal}
    (h : plan.set flag word value = .error refusal) : refusal.Speaks := by
  have hnumber : readNumber word value = .error refusal → refusal.Speaks := by
    intro hn
    rw [readNumber] at hn
    split at hn
    · cases hn
    · cases hn
      exact .inl rfl
  cases flag with
  | preset =>
    have hp := map_eq_error_iff.mp h
    rw [readPreset] at hp
    split at hp
    · cases hp
    · cases hp
      exact .inl rfl
  | seed | cycles | separation => exact hnumber (map_eq_error_iff.mp h)
  | trace | help => cases h

theorem readArguments_speaks {plan : Plan} {words : List String} {refusal : Refusal}
    (h : readArguments plan words = .error refusal) : refusal.Speaks := by
  fun_induction readArguments plan words with
  -- no file, a flag without its value, and a word that only looks like a flag
  | case1 | case5 | case8 =>
    cases h
    exact .inl rfl
  | case2 => cases h
  | case3 _ _ _ _ ih => exact ih h
  | case4 =>
    cases h
    exact .inr rfl
  | case6 _ _ _ _ _ _ _ _ _ _ ih => exact ih h
  | case7 _ _ _ _ _ _ _ _ _ hset =>
    cases h
    exact Plan.set_speaks hset
  | case9 _ _ _ _ _ ih => exact ih h

theorem readPlan_speaks {arguments : List String} {refusal : Refusal}
    (h : readPlan arguments = .error refusal) : refusal.Speaks := by
  rw [readPlan] at h
  split at h
  · cases h
    exact .inr rfl
  · exact readArguments_speaks h

def firstRejected? (files : Workspace) (paths : List String) : Option String :=
  paths.find? fun path => !(files.assemble path).1.isOk

theorem assembleAll_of_rejected {files : Workspace} {paths : List String} {path : String}
    (h : firstRejected? files paths = some path) :
    assembleAll files paths = (none, (files.assemble path).2) := by
  induction paths with
  | nil => cases h
  | cons first paths ih =>
    rw [firstRejected?, List.find?_cons] at h
    rw [assembleAll]
    cases ha : files.assemble first with
    | mk result lines =>
      rw [ha] at h
      cases result with
      | error error =>
        cases h
        rw [ha]
      | ok program =>
        obtain rfl := Workspace.lines_of_assemble_ok ha
        simp only [ih h]
        rfl

theorem exists_assembleAll_eq {files : Workspace} {paths : List String}
    (h : firstRejected? files paths = none) :
    ∃ programs, assembleAll files paths = (some programs, []) := by
  induction paths with
  | nil => exact ⟨[], rfl⟩
  | cons first paths ih =>
    rw [firstRejected?, List.find?_cons] at h
    rw [assembleAll]
    cases ha : files.assemble first with
    | mk result lines =>
      rw [ha] at h
      cases result with
      | error error => cases h
      | ok program =>
        obtain rfl := Workspace.lines_of_assemble_ok ha
        obtain ⟨programs, hall⟩ := ih h
        simp only [hall]
        exact ⟨program :: programs, rfl⟩

theorem Plan.enables_threshold (plan : Plan) : (plan.threshold .standard).enables .error = true := by
  unfold Plan.threshold
  split <;> rfl

theorem errors_play_ne_empty {plan : Plan} {programs : List Program} {draws : Draws}
    (h : (play plan (plan.threshold .standard) programs draws).exit = 1) (style : Log.Style) :
    (play plan (plan.threshold .standard) programs draws).errors style ≠ "" := by
  unfold play at h ⊢
  cases hload : Battle.load plan.settings programs draws with
  | error error => exact errors_ne_empty_of_logged plan.enables_threshold _ _ style
  | ok loaded =>
    rw [hload] at h
    cases h

section Unset

variable {files : Workspace} {generator : UInt64 → Draws} {entropy : Draws} {program : String}
  {arguments : List String}

theorem run_of_refusal {refusal : Refusal} (h : readPlan arguments = .error refusal) :
    run files generator entropy ⟨program, arguments, none⟩ =
      refusal.transcript .standard (usage program) := by
  simp only [run, h]
  rfl

theorem run_of_rejected {plan : Plan} (h : readPlan arguments = .ok plan) {path : String}
    (hr : firstRejected? files plan.files = some path) :
    run files generator entropy ⟨program, arguments, none⟩ =
      { exit := 1, stderr := logged (plan.threshold .standard) (files.assemble path).2 } := by
  simp only [run, h, assembleAll_of_rejected hr]
  rfl

theorem run_of_programs {plan : Plan} (h : readPlan arguments = .ok plan) {programs : List Program}
    (ha : assembleAll files plan.files = (some programs, [])) :
    run files generator entropy ⟨program, arguments, none⟩ =
      play plan (plan.threshold .standard) programs (plan.draws generator entropy) := by
  simp only [run, h, ha]
  rfl

/-- With the log as it is by default, a run that fails is silent exactly if its first file without a
program cannot be read. -/
theorem errors_run_eq_empty_iff
    (h : (run files generator entropy ⟨program, arguments, none⟩).exit = 1) (style : Log.Style) :
    (run files generator entropy ⟨program, arguments, none⟩).errors style = "" ↔
      ∃ plan path fault, readPlan arguments = .ok plan ∧
        firstRejected? files plan.files = some path ∧ files.readText path = .error fault := by
  cases hplan : readPlan arguments with
  | error refusal =>
    rw [run_of_refusal hplan]
    exact iff_of_false ((readPlan_speaks hplan).errors_ne_empty rfl _ style) (by simp)
  | ok plan =>
    cases hr : firstRejected? files plan.files with
    | none =>
      obtain ⟨programs, ha⟩ := exists_assembleAll_eq hr
      rw [run_of_programs hplan ha] at h ⊢
      refine iff_of_false (errors_play_ne_empty h style) ?_
      rintro ⟨_, path, _, ⟨⟩, hpath, _⟩
      rw [hr] at hpath
      cases hpath
    | some path =>
      rw [run_of_rejected hplan hr]
      have hrejected : (files.assemble path).1.isOk = false := by
        simpa using List.find?_some hr
      obtain ⟨fault, hread, ha⟩ | ⟨source, error, hread, ha⟩ | ⟨_, _, _, ha⟩ :=
        files.assemble_cases path
      · rw [ha]
        exact iff_of_true (Transcript.errors_eq_empty rfl style) ⟨plan, path, fault, rfl, hr, hread⟩
      · rw [ha]
        refine iff_of_false (errors_ne_empty_of_logged plan.enables_threshold _ _ style) ?_
        rintro ⟨_, other, fault, ⟨⟩, hother, hfault⟩
        rw [hr] at hother
        cases hother
        rw [hread] at hfault
        cases hfault
      · rw [ha] at hrejected
        cases hrejected

end Unset

end MatchRunner

/-- What a command leaves if its file is written by `write`, which tells what goes wrong. -/
def Ending.transcript (write : String → String → Option FileFault) : Ending → Transcript
  | done transcript => transcript
  | writing path text reply => reply (write path text)

namespace Assembler

theorem readFlags_speaks {plan : Plan} {words : List String} {refusal : Refusal}
    (h : readFlags plan words = .error refusal) : refusal.Speaks := by
  fun_induction readFlags plan words with
  | case1 => cases h
  | case2 | case4 =>
    cases h
    exact .inl rfl
  | case3 _ _ _ _ ih => exact ih h
  | case5 _ _ _ _ _ ih => exact ih h

theorem readPlan_speaks {arguments : List String} {refusal : Refusal}
    (h : readPlan arguments = .error refusal) : refusal.Speaks := by
  cases arguments with
  | nil =>
    cases h
    exact .inr rfl
  | cons input words =>
    rw [readPlan] at h
    split at h
    · cases h
      exact .inr rfl
    · exact readFlags_speaks h

theorem after_nil (ending : Ending) : after [] ending = ending := by
  cases ending <;> rfl

theorem deliver_cases (write : String → String → Option FileFault) (plan : Plan)
    (threshold : Log.Threshold) (program : Program) :
    ((deliver plan threshold program).transcript write).exit = 0 ∨
      ∃ message, (deliver plan threshold program).transcript write = fail threshold message := by
  unfold deliver
  split
  · exact .inl rfl
  · split
    · exact .inl rfl
    · next path _ =>
      rw [Ending.transcript]
      cases write path program.listing with
      | none => exact .inl rfl
      | some fault => exact .inr ⟨_, rfl⟩

section Unset

variable {files : Workspace} {write : String → String → Option FileFault} {program : String}
  {arguments : List String}

theorem run_of_refusal {refusal : Refusal} (h : readPlan arguments = .error refusal) :
    run files ⟨program, arguments, none⟩ = .done (refusal.transcript .standard (usage program)) := by
  simp only [run, h]
  rfl

theorem run_of_plan {plan : Plan} (h : readPlan arguments = .ok plan) :
    run files ⟨program, arguments, none⟩ = assemble files plan .standard := by
  simp only [run, h]
  exact after_nil _

section Input

variable {plan : Plan} {threshold : Log.Threshold} {lines : List Log.Line}

theorem assemble_of_absent (h : files.contains plan.input = false) :
    assemble files plan threshold =
      .done (fail threshold s!"Input file does not exist: {plan.input}") := by
  simp only [assemble, h]
  rfl

theorem assemble_of_rejected (h : files.contains plan.input = true) {error : SourceError}
    (ha : files.assemble plan.input = (.error error, lines)) :
    assemble files plan threshold = .done { exit := 1, stderr := logged threshold lines } := by
  simp only [assemble, h, ha]
  rfl

theorem assemble_of_program (h : files.contains plan.input = true) {result : Program}
    (ha : files.assemble plan.input = (.ok result, lines)) :
    assemble files plan threshold = deliver plan threshold result := by
  simp only [assemble, h, ha]
  rfl

theorem run_of_absent (h : readPlan arguments = .ok plan)
    (hc : files.contains plan.input = false) :
    run files ⟨program, arguments, none⟩ =
      .done (fail .standard s!"Input file does not exist: {plan.input}") := by
  rw [run_of_plan h, assemble_of_absent hc]

theorem run_of_unreadable (h : readPlan arguments = .ok plan)
    (hc : files.contains plan.input = true) {fault : FileFault}
    (hread : files.readText plan.input = .error fault) :
    run files ⟨program, arguments, none⟩ = .done { exit := 1 } := by
  have ha : files.assemble plan.input = (.error (.unreadable plan.input fault), []) := by
    simp only [Workspace.assemble, hread]
  rw [run_of_plan h, assemble_of_rejected hc ha]
  rfl

end Input

/-- With the log as it is by default, a run that fails is silent exactly if its input is there and
cannot be read. -/
theorem errors_run_eq_empty_iff
    (h : ((run files ⟨program, arguments, none⟩).transcript write).exit = 1) (style : Log.Style) :
    ((run files ⟨program, arguments, none⟩).transcript write).errors style = "" ↔
      ∃ plan fault, readPlan arguments = .ok plan ∧ files.contains plan.input = true ∧
        files.readText plan.input = .error fault := by
  cases hplan : readPlan arguments with
  | error refusal =>
    rw [run_of_refusal hplan]
    exact iff_of_false ((readPlan_speaks hplan).errors_ne_empty rfl _ style) (by simp)
  | ok plan =>
    rw [run_of_plan hplan] at h ⊢
    cases hc : files.contains plan.input with
    | false =>
      rw [assemble_of_absent hc]
      exact iff_of_false (errors_ne_empty_of_logged rfl _ _ style) (by simp [hc])
    | true =>
      obtain ⟨fault, hread, ha⟩ | ⟨source, error, hread, ha⟩ | ⟨source, result, hread, ha⟩ :=
        files.assemble_cases plan.input
      · rw [assemble_of_rejected hc ha]
        exact iff_of_true (Transcript.errors_eq_empty rfl style) ⟨plan, fault, rfl, hc, hread⟩
      · rw [assemble_of_rejected hc ha]
        exact iff_of_false (errors_ne_empty_of_logged rfl _ _ style) (by simp [hread])
      · rw [assemble_of_program hc ha] at h ⊢
        refine iff_of_false ?_ (by simp [hread])
        obtain hexit | ⟨message, hfail⟩ := deliver_cases write plan .standard result
        · rw [hexit] at h
          contradiction
        · rw [hfail]
          exact errors_ne_empty_of_logged rfl _ _ style

end Unset

end Assembler

namespace Workspace

variable {files : Workspace} {path : String}

theorem readText_of_read {fault : FileFault} (h : files.read path = .error fault) :
    files.readText path = .error fault := by
  rw [readText, h]
  rfl

theorem readText_of_text {text : String} (h : files.read path = .ok text.toUTF8) :
    files.readText path = .ok text := by
  have htext : String.fromUTF8? text.toUTF8 = some text := dif_pos text.isValidUTF8
  simp only [readText, h, bind, Except.bind, htext]
  rfl

theorem readText_of_bytes {bytes : ByteArray} (h : files.read path = .ok bytes)
    (hbytes : String.fromUTF8? bytes = none) : files.readText path = .error .notText := by
  simp only [readText, h, bind, Except.bind, hbytes]
  rfl

end Workspace

/-- A file that gives no program is reported, unless it cannot be read. With the log as it is by
default, a match that ends with exit code 1 prints something, unless the first of its files without a
program cannot be read; and so does the assembler, unless its input is there and cannot be read. So
the assembler reports a missing input, and is silent about a folder and about bytes that are no
text. -/
theorem failure_reported_iff (files : Workspace) (program : String) (arguments : List String)
    (style : Log.Style) :
    (∀ {path : String} {error : SourceError} {lines : List Log.Line},
      files.assemble path = (.error error, lines) →
      ((∃ line ∈ lines, line.Reports error) ↔ ¬ ∃ fault, files.readText path = .error fault)) ∧
    (∀ {generator : UInt64 → Draws} {entropy : Draws},
      (MatchRunner.run files generator entropy ⟨program, arguments, none⟩).exit = 1 →
      ((MatchRunner.run files generator entropy ⟨program, arguments, none⟩).errors style ≠ "" ↔
        ¬ ∃ plan path fault, MatchRunner.readPlan arguments = .ok plan ∧
          MatchRunner.firstRejected? files plan.files = some path ∧
          files.readText path = .error fault)) ∧
    ∀ {write : String → String → Option FileFault},
      (((Assembler.run files ⟨program, arguments, none⟩).transcript write).exit = 1 →
        (((Assembler.run files ⟨program, arguments, none⟩).transcript write).errors style ≠ "" ↔
          ¬ ∃ plan fault, Assembler.readPlan arguments = .ok plan ∧
            files.contains plan.input = true ∧ files.readText plan.input = .error fault)) ∧
      ∀ {plan : Assembler.Plan}, Assembler.readPlan arguments = .ok plan →
        (files.read plan.input = .error .notFound →
          ((Assembler.run files ⟨program, arguments, none⟩).transcript write).exit = 1 ∧
          ((Assembler.run files ⟨program, arguments, none⟩).transcript write).errors style ≠ "") ∧
        (files.read plan.input = .error .isDirectory ∨
            (∃ bytes, files.read plan.input = .ok bytes ∧ String.fromUTF8? bytes = none) →
          ((Assembler.run files ⟨program, arguments, none⟩).transcript write).exit = 1 ∧
          ((Assembler.run files ⟨program, arguments, none⟩).transcript write).errors style = "") := by
  refine ⟨Workspace.exists_reports_iff,
    fun h => not_congr (MatchRunner.errors_run_eq_empty_iff h style), ?_⟩
  intro write
  refine ⟨fun h => not_congr (Assembler.errors_run_eq_empty_iff h style), ?_⟩
  intro plan hplan
  constructor
  · intro hmissing
    rw [Assembler.run_of_absent hplan (files.contains_of_notFound hmissing)]
    exact ⟨rfl, errors_ne_empty_of_logged rfl _ _ style⟩
  · rintro (hfolder | ⟨bytes, hbytes, htext⟩)
    · rw [Assembler.run_of_unreadable hplan (files.contains_of_isDirectory hfolder)
        (Workspace.readText_of_read hfolder)]
      exact ⟨rfl, rfl⟩
    · rw [Assembler.run_of_unreadable hplan (files.contains_of_ok hbytes)
        (Workspace.readText_of_bytes hbytes htext)]
      exact ⟨rfl, rfl⟩

namespace Workspace

/-- A file with a label that stands twice in it, and one that may not be opened. All other paths lead
to folders. -/
def twin : Workspace :=
  .ofAnswers
    (fun path =>
      if path = "twin.red" then .ok twinSource.toUTF8
      else if path = "sealed.red" then .error (.other "Permission denied (os error 13)")
      else .error .isDirectory)
    (fun path => path == "sealed.red")

theorem readText_twin : twin.readText "twin.red" = .ok twinSource := readText_of_text rfl

theorem assemble_twin :
    twin.assemble "twin.red" = (.error (.atLine 3 (.duplicateSymbol "x")),
      [⟨.error, (SourceError.atLine 3 (.duplicateSymbol "x")).diagnostic "twin.red" twinSource⟩]) := by
  simp only [assemble, readText_twin, Program.assemble_twinSource]

end Workspace

theorem failure_reported_iff_twin :
    (∃ lines, Workspace.twin.assemble "twin.red" =
        (.error (.atLine 3 (.duplicateSymbol "x")), lines) ∧
      ∃ line ∈ lines, line.Reports (.atLine 3 (.duplicateSymbol "x"))) ∧
    (MatchRunner.run .twin ChaCha.draws (fun _ => 0)
      ⟨"redcode", ["twin.red", "."], none⟩).exit = 1 ∧
    (MatchRunner.run .twin ChaCha.draws (fun _ => 0)
      ⟨"redcode", ["twin.red", "."], none⟩).errors {} ≠ "" ∧
    ((Assembler.run .twin ⟨"redasm", ["twin.red", "-q"], none⟩).transcript fun _ _ => none).exit = 1 ∧
    ((Assembler.run .twin ⟨"redasm", ["twin.red", "-q"], none⟩).transcript fun _ _ => none).errors {} ≠
      "" ∧
    ((Assembler.run .twin ⟨"redasm", ["sealed.red"], none⟩).transcript fun _ _ => none).exit = 1 ∧
    ((Assembler.run .twin ⟨"redasm", ["sealed.red"], none⟩).transcript fun _ _ => none).errors {} =
      "" := by
  have hreadable : ¬ ∃ fault, Workspace.twin.readText "twin.red" = .error fault := by
    simp [Workspace.readText_twin]
  have hrejected : MatchRunner.firstRejected? .twin ["twin.red", "."] = some "twin.red" := by
    rw [MatchRunner.firstRejected?, List.find?_cons, Workspace.assemble_twin]
    rfl
  have hmatch : (MatchRunner.run .twin ChaCha.draws (fun _ => 0)
      ⟨"redcode", ["twin.red", "."], none⟩).exit = 1 :=
    congrArg Transcript.exit (MatchRunner.run_of_rejected rfl hrejected)
  have hlisting : ((Assembler.run .twin ⟨"redasm", ["twin.red", "-q"], none⟩).transcript
      fun _ _ => none).exit = 1 := by
    rw [Assembler.run_of_plan rfl, Assembler.assemble_of_rejected rfl Workspace.assemble_twin]
    rfl
  have hsealed : ((Assembler.run .twin ⟨"redasm", ["sealed.red"], none⟩).transcript
      fun _ _ => none).exit = 1 := rfl
  refine ⟨⟨_, Workspace.assemble_twin,
    ((failure_reported_iff .twin "redcode" [] {}).1 Workspace.assemble_twin).mpr hreadable⟩,
    hmatch, ?_, hlisting, ?_, hsealed, ?_⟩
  · apply ((failure_reported_iff .twin "redcode" ["twin.red", "."] {}).2.1 hmatch).mpr
    rintro ⟨_, path, fault, ⟨⟩, hpath, hfault⟩
    obtain rfl : "twin.red" = path := Option.some.inj (hrejected.symm.trans hpath)
    exact hreadable ⟨fault, hfault⟩
  · apply ((failure_reported_iff .twin "redasm" ["twin.red", "-q"] {}).2.2.1 hlisting).mpr
    rintro ⟨_, fault, ⟨⟩, _, hfault⟩
    exact hreadable ⟨fault, hfault⟩
  · by_contra hspeaks
    exact ((failure_reported_iff .twin "redasm" ["sealed.red"] {}).2.2.1 hsealed).mp hspeaks
      ⟨_, _, rfl, rfl, Workspace.readText_of_read rfl⟩

namespace Workspace

def bare : Workspace :=
  .ofAnswers (fun path => if path = "." then .error .isDirectory else .error .notFound) fun _ => false

end Workspace

/-- A folder in place of a file: nothing is logged, and both commands end with exit code 1 and print
nothing. -/
theorem folder_fails_silently :
    Workspace.bare.assemble "." = (.error (.unreadable "." .isDirectory), []) ∧
    (MatchRunner.run .bare ChaCha.draws (fun _ => 0) ⟨"redcode", ["."], none⟩).exit = 1 ∧
    (MatchRunner.run .bare ChaCha.draws (fun _ => 0) ⟨"redcode", ["."], none⟩).errors {} = "" ∧
    ((Assembler.run .bare ⟨"redasm", ["."], none⟩).transcript fun _ _ => none).exit = 1 ∧
    ((Assembler.run .bare ⟨"redasm", ["."], none⟩).transcript fun _ _ => none).errors {} = "" :=
  ⟨rfl, rfl, rfl, rfl, rfl⟩

end Command

end CoreWar
