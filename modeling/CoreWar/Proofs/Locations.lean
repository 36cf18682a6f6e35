import CoreWar.Assembly.Diagnostic
import CoreWar.Proofs.Assembly
import CoreWar.Proofs.Columns
import CoreWar.Proofs.Documents

namespace CoreWar

namespace Source

variable {texts : List (List Char)} {waiting : List String} {line since : Nat}

/-- The line with this number, if the first of the texts has the number `line`. -/
def HasLine (line : Nat) (texts : List (List Char)) (number : Nat) (text : List Char) : Prop :=
  ∃ i, number = line + i ∧ texts[i]? = some text

theorem hasLine_first (line : Nat) (text : List Char) (texts : List (List Char)) :
    HasLine line (text :: texts) line text :=
  ⟨0, rfl, rfl⟩

theorem HasLine.cons {number : Nat} {text : List Char} (h : HasLine (line + 1) texts number text)
    (first : List Char) : HasLine line (first :: texts) number text := by
  obtain ⟨i, rfl, hi⟩ := h
  exact ⟨i + 1, by omega, hi⟩

/-- What cannot be read is reported with its line and a column of that line. -/
theorem exists_place_of_readRecords_error {error : SourceError}
    (h : readRecords line waiting since texts = .error error) :
    ∃ number text column fault, error = .malformed number column fault ∧
      HasLine line texts number text ∧ IsPlace 1 text column := by
  induction texts generalizing line waiting since with
  | nil => cases h
  | cons text texts ih =>
    have hnext : ∀ {waiting since}, readRecords (line + 1) waiting since texts = .error error →
        ∃ number text' column fault, error = .malformed number column fault ∧
          HasLine line (text :: texts) number text' ∧ IsPlace 1 text' column := by
      intro waiting since hrest
      obtain ⟨number, text', column, fault, rfl, hline, hplace⟩ := ih hrest
      exact ⟨number, text', column, fault, rfl, hline.cons text, hplace⟩
    rw [readRecords] at h
    split at h
    · next refusal hread =>
      cases h
      exact ⟨line, text, _, _, rfl, hasLine_first .., isPlace_of_read_error hread⟩
    · exact hnext h
    · exact hnext h
    · exact hnext (map_eq_error_iff.mp h)

def Scanned (line : Nat) (texts : List (List Char)) (number : Nat) : Prop :=
  ∃ text tokens, HasLine line texts number text ∧ scan 1 text = .ok tokens

theorem Scanned.cons {number : Nat} (h : Scanned (line + 1) texts number) (first : List Char) :
    Scanned line (first :: texts) number := by
  obtain ⟨text, tokens, hline, hscan⟩ := h
  exact ⟨text, tokens, hline.cons first, hscan⟩

theorem scanned_of_read {pending : Bool} {text : List Char} {read : Line}
    (h : Line.read pending text = .ok (some read)) (line : Nat) (texts : List (List Char)) :
    Scanned line (text :: texts) line :=
  ⟨text, _, hasLine_first .., (codeTokens_of_read h).2.1⟩

theorem exists_line_of_readRecords {records : List Record}
    (h : readRecords line waiting since texts = .ok records) :
    ∀ record ∈ records, ∃ number, record.line = some number ∧
      (waiting ≠ [] ∧ number = since ∨ Scanned line texts number) := by
  induction texts generalizing line waiting since records with
  | nil =>
    rw [readRecords] at h
    cases h
    by_cases hwaiting : waiting.isEmpty
    · rw [if_pos hwaiting]
      exact List.forall_mem_nil _
    · rw [if_neg hwaiting]
      refine List.forall_mem_singleton.mpr ⟨since, rfl, .inl ⟨?_, rfl⟩⟩
      rintro rfl
      exact hwaiting rfl
  | cons text texts ih =>
    rw [readRecords] at h
    split at h
    · cases h
    · intro record hm
      obtain ⟨number, hnumber, hplace⟩ := ih h record hm
      exact ⟨number, hnumber, hplace.imp_right fun hline => hline.cons text⟩
    · next labels hread =>
      intro record hm
      obtain ⟨number, hnumber, ⟨_, hsince⟩ | hline⟩ := ih h record hm
      · refine ⟨number, hnumber, ?_⟩
        -- the labels wait since this line, unless others were there before
        by_cases hwaiting : waiting = []
        · subst hwaiting
          obtain rfl : number = line := hsince
          exact .inr (scanned_of_read hread number texts)
        · rw [if_neg (by simpa using hwaiting)] at hsince
          exact .inl ⟨hwaiting, hsince⟩
      · exact ⟨number, hnumber, .inr (hline.cons text)⟩
    · next labels body hread =>
      obtain ⟨more, hmore, rfl⟩ := map_eq_ok_iff.mp h
      refine List.forall_mem_cons.mpr ⟨⟨line, rfl, .inr (scanned_of_read hread line texts)⟩, ?_⟩
      intro record hm
      obtain ⟨number, hnumber, ⟨hne, _⟩ | hline⟩ := ih hmore record hm
      · exact absurd rfl hne
      · exact ⟨number, hnumber, .inr (hline.cons text)⟩

theorem isPlace_firstColumn {text : List Char} {tokens : List Token}
    (h : scan 1 text = .ok tokens) : IsPlace 1 text (SourceError.firstColumn text) := by
  have hcode := (isPlace_of_scan_ok h).2
  have hsplit : (text.takeWhile Text.isBlank ++ text.dropWhile Text.isBlank).takeWhile (· != ';') =
      text.takeWhile Text.isBlank ++ (text.dropWhile Text.isBlank).takeWhile (· != ';') := by
    apply List.takeWhile_append_of_pos
    intro c hc
    exact bne_iff_ne.mpr (ne_semicolon_of_isBlank (List.all_eq_true.mp List.all_takeWhile c hc))
  rw [List.takeWhile_append_dropWhile] at hsplit
  have hblanks : Text.IsAscii (text.takeWhile Text.isBlank) := by
    intro c hc
    apply hcode
    rw [hsplit]
    exact List.mem_append_left _ hc
  refine ⟨_, text.dropWhile Text.isBlank, List.takeWhile_append_dropWhile.symm, hblanks, ?_⟩
  rw [SourceError.firstColumn, hblanks.byteLength_eq, Nat.add_comm]

end Source

namespace SourceError

open Source

/-- A line of a source and a column of it. All characters before the column are ASCII, so that it
is the same whether bytes or characters are counted. -/
structure IsLocation (source : String) (line column : Nat) (text : List Char) : Prop where
  line_pos : 1 ≤ line
  line_le : line ≤ (Text.lines source.toList).length
  text_eq : (Text.lines source.toList)[line - 1]? = some text
  column_pos : 1 ≤ column
  column_le : column ≤ Text.byteLength text + 1
  boundary : ∃ before after, text = before ++ after ∧ Text.IsAscii before ∧
    column = Text.byteLength before + 1 ∧ column = before.length + 1

/-- The report says what is wrong and where, and shows the line, without the carriage returns at its
end, above a caret that stands after as many blanks as there are columns before. -/
def Shows (report file message : String) (line column : Nat) (text : List Char) : Prop :=
  ∃ code returns, text = code ++ returns ∧ (∀ c ∈ returns, c = '\r') ∧
    code.getLast? ≠ some '\r' ∧
    report = s!"error: {message}\n --> {file}:{line}:{column}\n" ++
      ("  |\n" ++ Text.padLeft 4 ' ' (toString line) ++ " | " ++ String.ofList code ++ "\n" ++
        "  | " ++ String.ofList (List.replicate (column - 1) ' ') ++ "^\n")

theorem isLocation_of_isPlace {source : String} {line column : Nat} {text : List Char}
    (hline : HasLine 1 (Text.lines source.toList) line text) (hplace : IsPlace 1 text column) :
    IsLocation source line column text := by
  obtain ⟨i, rfl, hi⟩ := hline
  obtain ⟨before, after, rfl, hbefore, rfl⟩ := hplace
  have hlt := (List.getElem?_eq_some_iff.mp hi).1
  have hbytes := hbefore.byteLength_eq
  refine ⟨by omega, by omega, ?_, by omega, ?_, before, after, rfl, hbefore, ?_, ?_⟩
  · rw [Nat.add_sub_cancel_left]
    exact hi
  · rw [Text.byteLength_append]
    omega
  · omega
  · omega

theorem shows_diagnostic {source : String} {error : SourceError} {line column : Nat}
    {message : String} {text : List Char}
    (hlocation : error.location? (Text.lines source.toList) = some ⟨line, column, message⟩)
    (hline : sourceLine? (Text.lines source.toList) line = some text) (file : String) :
    Shows (error.diagnostic file source) file message line column text := by
  have hsplit := List.takeWhile_append_dropWhile (p := (· == '\r')) (l := text.reverse)
  refine ⟨(text.reverse.dropWhile (· == '\r')).reverse,
    (text.reverse.takeWhile (· == '\r')).reverse, ?_, ?_, ?_, ?_⟩
  · rw [← List.reverse_append, hsplit, List.reverse_reverse]
  · intro c hc
    rw [List.mem_reverse] at hc
    exact beq_iff_eq.mp (List.all_eq_true.mp List.all_takeWhile c hc)
  · rw [List.getLast?_reverse]
    intro hr
    cases Text.not_of_head?_dropWhile hr
  · rw [diagnostic, hlocation]
    dsimp only
    rw [hline]
    rfl

end SourceError

/-- A source gives no program because a line cannot be read, because of a fault that is found on one
of its lines, or because the program starts outside of itself. In the first two cases the error is
reported at a real place of the source, and the report shows it. -/
theorem Program.assemble_error_located {source : String} {error : SourceError}
    (h : Program.assemble source = .error error) (file : String) :
    (∃ start length, error = .startOutOfRange start length) ∨
    ∃ line column message text,
      ((∃ fault, error = .malformed line column fault ∧ message = fault.message) ∨
        ∃ cause, cause.IsRecordFault ∧ error = .atLine line cause ∧ message = cause.message) ∧
      SourceError.IsLocation source line column text ∧
      SourceError.Shows (error.diagnostic file source) file message line column text := by
  rw [Program.assemble] at h
  obtain h | ⟨document, hdocument, h⟩ := bind_eq_error_iff.mp h
  · right
    obtain ⟨line, text, column, fault, rfl, hline, hplace⟩ :=
      Source.exists_place_of_readRecords_error (map_eq_error_iff.mp h)
    have hlocation := SourceError.isLocation_of_isPlace hline hplace
    exact ⟨line, column, fault.message, text, .inl ⟨fault, rfl, rfl⟩, hlocation,
      SourceError.shows_diagnostic rfl hlocation.text_eq file⟩
  · obtain h | ⟨program, _, h⟩ := bind_eq_error_iff.mp h
    · obtain ⟨record, hm, cause, hcause, rfl⟩ | hstart := Source.assembleRecords_eq_error h
      · right
        obtain ⟨records, hrecords, rfl⟩ := map_eq_ok_iff.mp hdocument
        obtain ⟨line, hline, ⟨hne, _⟩ | ⟨text, tokens, htext, hscan⟩⟩ :=
          Source.exists_line_of_readRecords hrecords record hm
        · exact absurd rfl hne
        have hlocation :=
          SourceError.isLocation_of_isPlace htext (Source.isPlace_firstColumn hscan)
        have hlocate : cause.locate record.line = .atLine line cause := by
          rw [hline]
          cases hcause <;> rfl
        have hroot : cause.root = cause := by cases hcause <;> rfl
        rw [hlocate]
        refine ⟨line, _, cause.message, text, .inr ⟨cause, hcause, rfl, rfl⟩, hlocation, ?_⟩
        refine SourceError.shows_diagnostic ?_ hlocation.text_eq file
        rw [SourceError.location?, SourceError.sourceLine?, hlocation.text_eq, hroot]
        rfl
      · exact .inl hstart
    · cases h

def twinSource : String := "; é\nx END\r\n\t x: END ; é\n"

theorem Program.assemble_twinSource :
    Program.assemble twinSource = .error (.atLine 3 (.duplicateSymbol "x")) := by
  have hread : Source.Document.read twinSource =
      .ok ⟨[⟨["x"], some 2, .finish none⟩, ⟨["x"], some 3, .finish none⟩], {}⟩ := by decide +kernel
  rw [Program.assemble, hread]
  rfl

theorem Program.assemble_error_located_twinSource :
    Program.assemble twinSource = .error (.atLine 3 (.duplicateSymbol "x")) ∧
    ∃ column text, SourceError.IsLocation twinSource 3 column text ∧
      SourceError.Shows
        ((SourceError.atLine 3 (.duplicateSymbol "x")).diagnostic "w.red" twinSource)
        "w.red" "duplicate symbol: x" 3 column text := by
  refine ⟨assemble_twinSource, ?_⟩
  obtain ⟨_, _, he⟩ | ⟨line, column, message, text, hkind, hlocation, hshows⟩ :=
    Program.assemble_error_located assemble_twinSource "w.red"
  · cases he
  · obtain ⟨_, he, _⟩ | ⟨cause, _, he, rfl⟩ := hkind
    · cases he
    · cases he
      exact ⟨column, text, hlocation, hshows⟩

end CoreWar
