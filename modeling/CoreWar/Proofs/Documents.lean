import CoreWar.Proofs.Lines
import CoreWar.Proofs.TextLines
import CoreWar.Source.Document

namespace CoreWar

namespace Metadata

/-- What two sources say together. Strategies add up; of the other entries the second one stands. -/
def merge (first second : Metadata) : Metadata where
  name := second.name <|> first.name
  author := second.author <|> first.author
  version := second.version <|> first.version
  date := second.date <|> first.date
  strategy := match first.strategy, second.strategy with
    | some text, some more => some (text ++ "\n" ++ more)
    | some text, none => some text
    | none, more => more

theorem merge_empty (metadata : Metadata) : metadata.merge {} = metadata := by
  obtain ⟨name, author, version, date, strategy⟩ := metadata
  cases strategy <;> rfl

theorem merge_put (first second : Metadata) (key : Key) (value : String) :
    first.merge (second.put key value) = (first.merge second).put key value := by
  cases key with
  | name | author | version | date => rfl
  | strategy =>
    obtain ⟨_, _, _, _, text⟩ := first
    obtain ⟨_, _, _, _, more⟩ := second
    cases text <;> cases more <;> simp [merge, put, String.append_assoc]

theorem merge_addComment (first second : Metadata) (comment : List Char) :
    first.merge (second.addComment comment) = (first.merge second).addComment comment := by
  simp only [addComment, set?]
  cases Key.ofText? (String.ofList ((Text.trim comment).takeWhile (!Text.isBlank ·))) with
  | none => rfl
  | some key => exact merge_put ..

theorem foldl_addComment (metadata : Metadata) (comments : List (List Char)) :
    comments.foldl addComment metadata = metadata.merge (comments.foldl addComment {}) := by
  suffices h : ∀ second, comments.foldl addComment (metadata.merge second) =
      metadata.merge (comments.foldl addComment second) by
    rw [← h, merge_empty]
  induction comments with
  | nil => exact fun _ => rfl
  | cons comment comments ih =>
    intro second
    rw [List.foldl_cons, ← merge_addComment, ih, List.foldl_cons]

end Metadata

namespace Source

theorem readMetadata_append (texts more : List (List Char)) :
    readMetadata (texts ++ more) = (readMetadata texts).merge (readMetadata more) := by
  rw [readMetadata, List.filterMap_append, List.foldl_append]
  exact Metadata.foldl_addComment _ _

def codeTokens (text : List Char) : List Token :=
  if (comment? text).isSome then [] else (scan 1 text).toOption.getD []

def isCode (text : List Char) : Bool := !(codeTokens text).isEmpty

def LabelOnly (text : List Char) : Prop :=
  isCode text = true ∧ ∃ names, LabelsForm (lexemes (codeTokens text)) names

/-- The labels of the last line of code among these are left without a record. -/
def LeavesLabels (texts : List (List Char)) : Prop :=
  ∃ text ∈ (texts.filter isCode).getLast?, LabelOnly text

theorem isCode_of_read_none {pending : Bool} {text : List Char}
    (h : Line.read pending text = .ok none) : isCode text = false := by
  rw [Line.read] at h
  unfold isCode codeTokens
  cases hcomment : (comment? text).isSome with
  | true => rfl
  | false =>
    rw [hcomment] at h
    cases hscan : scan 1 text with
    | error refusal => rfl
    | ok tokens =>
      rw [hscan] at h
      cases tokens with
      | nil => rfl
      | cons token tokens =>
        obtain ⟨_, _, he⟩ := map_eq_ok_iff.mp h
        cases he

theorem codeTokens_of_read {pending : Bool} {text : List Char} {line : Line}
    (h : Line.read pending text = .ok (some line)) :
    comment? text = none ∧ scan 1 text = .ok (codeTokens text) ∧ codeTokens text ≠ [] := by
  rw [Line.read] at h
  unfold codeTokens
  cases hcomment : comment? text with
  | some comment =>
    rw [hcomment] at h
    cases h
  | none =>
    rw [hcomment] at h
    cases hscan : scan 1 text with
    | error refusal =>
      rw [hscan] at h
      cases h
    | ok tokens =>
      refine ⟨rfl, rfl, ?_⟩
      rintro rfl
      rw [hscan] at h
      cases h

theorem labelOnly_iff_of_read {pending : Bool} {text : List Char} {names : List String}
    {body : Option Body} (h : Line.read pending text = .ok (some ⟨names, body⟩)) :
    isCode text = true ∧ (LabelOnly text ↔ body = none) := by
  obtain ⟨hcomment, hscan, hcode⟩ := codeTokens_of_read h
  have hisCode : isCode text = true := by simpa [isCode] using hcode
  have hform := (Line.read_eq_ok_iff hscan hcomment hcode).mp h
  have hparts : ∃ rest, readLabels (codeTokens text) = (names, rest) ∧
      readBody 0 (pending || !names.isEmpty) rest = .ok body := readLine_eq_ok_iff.mpr hform
  obtain ⟨rest, hlabels, hbody⟩ := hparts
  refine ⟨hisCode, ?_⟩
  constructor
  · rintro ⟨_, others, hothers⟩
    have hread := hothers.readLabels_eq rfl .nil
    rw [List.append_nil, hlabels] at hread
    cases hread
    cases hbody
    rfl
  · rintro rfl
    refine ⟨hisCode, names, ?_⟩
    generalize lexemes (codeTokens text) = used at hform ⊢
    cases hform with
    | labels hlabels => exact hlabels

/-- A record of a source that starts `count` lines further down. -/
def Record.moveDown (count : Nat) (record : Record) : Record :=
  { record with line := record.line.map (· + count) }

end Source

def SourceError.moveDown (count : Nat) : SourceError → SourceError
  | malformed line column fault => malformed (line + count) column fault
  | atLine line cause => atLine (line + count) cause
  | error => error

namespace Source

variable {texts : List (List Char)} {waiting : List String} {line since : Nat}

/-- The line of the first label that waits does not count as long as none waits. -/
theorem readRecords_since (line since since' : Nat) (texts : List (List Char)) :
    readRecords line [] since texts = readRecords line [] since' texts := by
  induction texts generalizing line since since' with
  | nil => rfl
  | cons text texts ih =>
    rw [readRecords, readRecords]
    split
    · rfl
    · exact ih ..
    · rfl
    · rw [ih (line + 1) since since']

theorem readRecords_moveDown (count line : Nat) (waiting : List String) (since : Nat)
    (texts : List (List Char)) :
    readRecords (line + count) waiting (since + count) texts =
      ((readRecords line waiting since texts).map (List.map (Record.moveDown count))).mapError
        (SourceError.moveDown count) := by
  induction texts generalizing line waiting since with
  | nil =>
    rw [readRecords, readRecords]
    cases waiting <;> rfl
  | cons text texts ih =>
    have hnext : line + count + 1 = line + 1 + count := Nat.add_right_comm ..
    rw [readRecords, readRecords]
    cases Line.read (!waiting.isEmpty) text with
    | error refusal => rfl
    | ok result =>
      obtain _ | ⟨labels, _ | body⟩ := result
      · dsimp only
        rw [hnext, ih]
      · dsimp only
        rw [hnext, ← ih]
        cases waiting <;> rfl
      · dsimp only
        rw [hnext, ih]
        cases readRecords (line + 1) [] since texts <;> rfl

theorem readRecords_append_error {error : SourceError}
    (h : readRecords line waiting since texts = .error error) (more : List (List Char)) :
    readRecords line waiting since (texts ++ more) = .error error := by
  induction texts generalizing line waiting since with
  | nil => cases h
  | cons text texts ih =>
    rw [List.cons_append, readRecords]
    rw [readRecords] at h
    cases hread : Line.read (!waiting.isEmpty) text with
    | error refusal =>
      rw [hread] at h
      exact h
    | ok result =>
      rw [hread] at h
      obtain _ | ⟨labels, _ | body⟩ := result
      · exact ih h
      · exact ih h
      · dsimp only at h ⊢
        rw [ih (map_eq_error_iff.mp h)]
        rfl

/-- The lines after go on with the next line number, and with no labels if none are left. -/
theorem readRecords_append {records : List Record}
    (h : readRecords line waiting since texts = .ok records)
    (hlast : ¬ LeavesLabels texts) (hnone : texts.filter isCode = [] → waiting = [])
    (more : List (List Char)) :
    readRecords line waiting since (texts ++ more) =
      (readRecords (line + texts.length) [] 0 more).map (records ++ ·) := by
  induction texts generalizing line waiting since records with
  | nil =>
    obtain rfl := hnone rfl
    cases h
    rw [List.nil_append, readRecords_since line since 0]
    cases readRecords line [] 0 more <;> rfl
  | cons text texts ih =>
    have hnext : line + (text :: texts).length = line + 1 + texts.length := by
      rw [List.length_cons, Nat.add_right_comm, Nat.add_assoc]
    rw [List.cons_append, readRecords, hnext]
    rw [readRecords] at h
    cases hread : Line.read (!waiting.isEmpty) text with
    | error refusal =>
      rw [hread] at h
      cases h
    | ok result =>
      rw [hread] at h
      obtain _ | ⟨labels, body⟩ := result
      · have hfilter : (text :: texts).filter isCode = texts.filter isCode :=
          List.filter_cons_of_neg (by simp [isCode_of_read_none hread])
        unfold LeavesLabels at hlast
        rw [hfilter] at hlast hnone
        exact ih h hlast hnone
      · obtain ⟨hcode, honly⟩ := labelOnly_iff_of_read hread
        have hfilter : (text :: texts).filter isCode = text :: texts.filter isCode :=
          List.filter_cons_of_pos hcode
        unfold LeavesLabels at hlast
        rw [hfilter, List.getLast?_cons] at hlast
        have hrest : ¬ LeavesLabels texts := by
          rintro ⟨last, hm, hlabels⟩
          rw [Option.mem_def.mp hm] at hlast
          exact hlast ⟨last, rfl, hlabels⟩
        cases body with
        | none =>
          refine ih h hrest ?_
          intro hnil
          rw [hnil] at hlast
          exact absurd ⟨text, rfl, honly.mpr rfl⟩ hlast
        | some body =>
          obtain ⟨others, hothers, rfl⟩ := map_eq_ok_iff.mp h
          dsimp only
          rw [ih hothers hrest fun _ => rfl]
          cases readRecords (line + 1 + texts.length) [] 0 more <;> rfl

/-- A text after complete lines is read as if it stood alone, only further down, unless labels wait
for it. What is wrong in the lines before is wrong in any case. -/
theorem Document.read_append {first : String} (hfirst : ∀ c ∈ first.toList.getLast?, c = '\n')
    (second : String) :
    (∀ error, Document.read first = .error error →
      Document.read (first ++ second) = .error error) ∧
    ∀ document, Document.read first = .ok document →
      ¬ LeavesLabels (Text.lines first.toList) →
      (∀ error, Document.read second = .error error →
        Document.read (first ++ second) =
          .error (error.moveDown (first.toList.count '\n'))) ∧
      ∀ more, Document.read second = .ok more →
        Document.read (first ++ second) =
          .ok ⟨document.records ++ more.records.map (Record.moveDown (first.toList.count '\n')),
            document.metadata.merge more.metadata⟩ := by
  have hended := Text.ended_of_getLast? hfirst
  have hlines : Text.lines (first ++ second).toList =
      Text.lines first.toList ++ Text.lines second.toList := by
    rw [String.toList_append, hended.lines_append]
  rw [← hended.length_lines]
  simp only [Document.read, hlines, map_eq_error_iff]
  refine ⟨fun error h => readRecords_append_error h _, ?_⟩
  intro document h hlabels
  obtain ⟨records, hrecords, rfl⟩ := map_eq_ok_iff.mp h
  have hwhole := readRecords_append hrecords hlabels (fun _ => rfl) (Text.lines second.toList)
  have hmoved := readRecords_moveDown (Text.lines first.toList).length 1 [] 0
    (Text.lines second.toList)
  rw [readRecords_since _ _ 0] at hmoved
  rw [hmoved] at hwhole
  refine ⟨fun error herror => ?_, fun more hmore => ?_⟩
  · rw [hwhole, herror]
    rfl
  · obtain ⟨others, hothers, rfl⟩ := map_eq_ok_iff.mp hmore
    rw [hwhole, hothers, readMetadata_append]
    rfl

def endedSource : String := ";name Imp\n;strategy run\r\nhere: END ; x\n\n"

def labelSource : String := ";strategy hide\n;author me\n\nlast:\n"

theorem read_endedSource :
    Document.read endedSource =
      .ok ⟨[⟨["here"], some 3, .finish none⟩], { name := "Imp", strategy := "run" }⟩ := by
  decide +kernel

theorem not_leavesLabels_endedSource : ¬ LeavesLabels (Text.lines endedSource.toList) := by
  have hlast : ((Text.lines endedSource.toList).filter isCode).getLast? =
      some "here: END ; x".toList := by decide +kernel
  have hread : Line.read false "here: END ; x".toList =
      .ok (some ⟨["here"], some (.finish none)⟩) := by decide +kernel
  rintro ⟨text, hm, honly⟩
  rw [hlast] at hm
  cases hm
  cases (labelOnly_iff_of_read hread).2.mp honly

theorem Document.read_append_endedSource :
    Document.read endedSource =
      .ok ⟨[⟨["here"], some 3, .finish none⟩], { name := "Imp", strategy := "run" }⟩ ∧
    Document.read (endedSource ++ labelSource) =
      .ok ⟨[⟨["here"], some 3, .finish none⟩, ⟨["last"], some 8, .finish none⟩],
        { name := "Imp", author := "me", strategy := "run\nhide" }⟩ ∧
    Document.read (endedSource ++ "\n x:: END") =
      .error (.malformed 6 4 .labelOrOpcodeExpected) ∧
    Document.read ("\n x:: END\n" ++ endedSource) =
      .error (.malformed 2 4 .labelOrOpcodeExpected) := by
  have hlabels : Document.read labelSource =
      .ok ⟨[⟨["last"], some 4, .finish none⟩], { author := "me", strategy := "hide" }⟩ := by
    decide +kernel
  have hcolons : Document.read "\n x:: END" = .error (.malformed 2 4 .labelOrOpcodeExpected) := by
    decide +kernel
  have hended : ∀ c ∈ endedSource.toList.getLast?, c = '\n' := by
    rw [show endedSource.toList.getLast? = some '\n' by decide]
    exact fun c hc => (Option.some.inj hc).symm
  obtain ⟨_, hafter⟩ := Document.read_append hended labelSource
  obtain ⟨_, hafter'⟩ := Document.read_append hended "\n x:: END"
  have hended' : ∀ c ∈ "\n x:: END\n".toList.getLast?, c = '\n' := by
    rw [show "\n x:: END\n".toList.getLast? = some '\n' by decide]
    exact fun c hc => (Option.some.inj hc).symm
  refine ⟨read_endedSource, ?_, ?_, (Document.read_append hended' _).1 _ (by decide +kernel)⟩
  · exact (hafter _ read_endedSource not_leavesLabels_endedSource).2 _ hlabels
  · exact (hafter' _ read_endedSource not_leavesLabels_endedSource).1 _ hcolons

end Source

end CoreWar
