import CoreWar.Proofs.Documents
import CoreWar.Proofs.Symbols

namespace CoreWar.Source

structure NumberedLine where
  number : Nat
  text : List Char
  deriving DecidableEq

def numberFrom (line : Nat) : List (List Char) → List NumberedLine
  | [] => []
  | text :: texts => ⟨line, text⟩ :: numberFrom (line + 1) texts

def sourceLines (source : String) : List NumberedLine := numberFrom 1 (Text.lines source.toList)

abbrev InOrder (lines : List NumberedLine) : Prop :=
  lines.Pairwise fun first second => first.number < second.number

theorem le_of_mem_numberFrom {line : Nat} {texts : List (List Char)} {entry : NumberedLine}
    (h : entry ∈ numberFrom line texts) : line ≤ entry.number := by
  induction texts generalizing line with
  | nil => cases h
  | cons text texts ih =>
    obtain rfl | hm := List.mem_cons.mp h
    · exact Nat.le_refl _
    · exact Nat.le_of_succ_le (ih hm)

theorem inOrder_numberFrom (line : Nat) (texts : List (List Char)) :
    InOrder (numberFrom line texts) := by
  induction texts generalizing line with
  | nil => exact .nil
  | cons text texts ih => exact .cons (fun _ hm => le_of_mem_numberFrom hm) (ih (line + 1))

theorem inOrder_sourceLines (source : String) : InOrder (sourceLines source) :=
  inOrder_numberFrom 1 _

namespace Lexeme

def word? : Lexeme → Option String
  | word name => some name
  | _ => none

def isKeyword (lexeme : Lexeme) : Bool := (lexeme.word?.bind Keyword.ofWord?).isSome

end Lexeme

namespace NumberedLine

def lexemes (line : NumberedLine) : List Lexeme := Source.lexemes (codeTokens line.text)

def labels (line : NumberedLine) : List String :=
  (line.lexemes.takeWhile (!·.isKeyword)).filterMap Lexeme.word?

def hasBody (line : NumberedLine) : Bool := line.lexemes.any Lexeme.isKeyword

end NumberedLine

theorem isKeyword_word (name : String) :
    (Lexeme.word name).isKeyword = (Keyword.ofWord? name).isSome := rfl

theorem isKeyword_of_sameName {word : String} {keyword : Keyword}
    (h : Text.sameName word keyword.text) : (Lexeme.word word).isKeyword = true := by
  rw [isKeyword_word, Keyword.ofWord?_eq_some_iff.mpr h]
  rfl

theorem isKeyword_of_forall_not {name : String}
    (h : ∀ keyword : Keyword, ¬ Text.sameName name keyword.text) :
    (Lexeme.word name).isKeyword = false := by
  rw [isKeyword_word, Keyword.ofWord?_eq_none_iff.mpr h]
  rfl

theorem LabelsForm.takeWhile_append {used : List Lexeme} {names : List String}
    (h : LabelsForm used names) (more : List Lexeme) :
    ((used ++ more).takeWhile (!·.isKeyword)).filterMap Lexeme.word? =
        names ++ (more.takeWhile (!·.isKeyword)).filterMap Lexeme.word? ∧
      (used ++ more).any Lexeme.isKeyword = more.any Lexeme.isKeyword := by
  induction h with
  | nil => exact ⟨rfl, rfl⟩
  | plain hname _ ih =>
    have hnot := isKeyword_of_forall_not hname
    simp [hnot, ih, Lexeme.word?]
  | colon hname _ ih =>
    have hnot := isKeyword_of_forall_not hname
    have hcolon : Lexeme.colon.isKeyword = false := rfl
    simp [hnot, hcolon, ih, Lexeme.word?, List.filterMap_cons]

theorem BodyForm.takeWhile_eq {labelled : Bool} {used : List Lexeme} {body : Body}
    (h : BodyForm labelled used body) :
    used.takeWhile (!·.isKeyword) = [] ∧ used.any Lexeme.isKeyword = true := by
  have hkeyword : ∀ {word : String} (keyword : Keyword) (more : List Lexeme),
      Text.sameName word keyword.text →
      (Lexeme.word word :: more).takeWhile (!·.isKeyword) = [] ∧
        (Lexeme.word word :: more).any Lexeme.isKeyword = true := by
    intro word keyword more hword
    simp [isKeyword_of_sameName hword]
  cases h with
  | @instruction _ opcode _ _ hword _ => exact hkeyword (.opcode opcode) _ hword
  | origin hword _ => exact hkeyword .origin _ hword
  | finish hword | finishAt hword _ => exact hkeyword .finish _ hword
  | equate hword _ _ => exact hkeyword .equate _ hword

theorem LineForm.labels_eq {labelled : Bool} (line : NumberedLine) {names : List String}
    {body : Option Body} (h : LineForm labelled line.lexemes names body) :
    line.labels = names ∧ line.hasBody = body.isSome := by
  unfold NumberedLine.labels NumberedLine.hasBody
  generalize line.lexemes = used at h
  cases h with
  | labels h =>
    have hparts := h.takeWhile_append []
    rw [List.append_nil] at hparts
    exact ⟨hparts.1.trans (List.append_nil names), hparts.2⟩
  | body h hbody =>
    have hparts := h.takeWhile_append
    rw [(hparts _).1, (hparts _).2, hbody.takeWhile_eq.1, hbody.takeWhile_eq.2]
    exact ⟨List.append_nil names, rfl⟩

theorem LabelsForm.names_ne_nil {used : List Lexeme} {names : List String}
    (h : LabelsForm used names) (hused : used ≠ []) : names ≠ [] := by
  cases h with
  | nil => exact absurd rfl hused
  | plain _ _ | colon _ _ => exact List.cons_ne_nil _ _

/-- Lines are gathered into records. The labels in `waiting`, the first of which stands on line
`since`, have no record yet. -/
inductive Gathered : List String → Nat → List NumberedLine → List Record → Prop
  | done (since : Nat) : Gathered [] since [] []
  | final {waiting : List String} (hwaiting : waiting ≠ []) (since : Nat) :
      Gathered waiting since [] [⟨waiting, some since, .finish none⟩]
  | blank {waiting : List String} {since : Nat} {line : NumberedLine} {lines : List NumberedLine}
      {records : List Record} (hlabels : line.labels = []) (hbody : line.hasBody = false)
      (hcode : isCode line.text = false) (hmore : Gathered waiting since lines records) :
      Gathered waiting since (line :: lines) records
  | labels {waiting : List String} {since : Nat} {line : NumberedLine} {lines : List NumberedLine}
      {records : List Record} (hlabels : line.labels ≠ []) (hbody : line.hasBody = false)
      (hcode : isCode line.text = true)
      (hmore : Gathered (waiting ++ line.labels) (if waiting.isEmpty then line.number else since)
        lines records) :
      Gathered waiting since (line :: lines) records
  | body {waiting : List String} {since : Nat} {line : NumberedLine} {lines : List NumberedLine}
      {records : List Record} {body : Body} (hbody : line.hasBody = true)
      (hform : LineForm (!(waiting ++ line.labels).isEmpty) line.lexemes line.labels (some body))
      (hmore : Gathered [] since lines records) :
      Gathered waiting since (line :: lines)
        (⟨waiting ++ line.labels, some line.number, body⟩ :: records)

theorem lineForm_of_read {pending : Bool} {text : List Char} {names : List String}
    {body : Option Body} (h : Line.read pending text = .ok (some ⟨names, body⟩)) :
    isCode text = true ∧
      LineForm (pending || !names.isEmpty) (lexemes (codeTokens text)) names body := by
  obtain ⟨hcomment, hscan, hcode⟩ := codeTokens_of_read h
  exact ⟨(labelOnly_iff_of_read h).1, (Line.read_eq_ok_iff hscan hcomment hcode).mp h⟩

theorem gathered_of_readRecords {line : Nat} {waiting : List String} {since : Nat}
    {texts : List (List Char)} {records : List Record}
    (h : readRecords line waiting since texts = .ok records) :
    Gathered waiting since (numberFrom line texts) records := by
  induction texts generalizing line waiting since records with
  | nil =>
    cases h
    cases waiting with
    | nil => exact .done since
    | cons name names => exact .final (List.cons_ne_nil _ _) since
  | cons text texts ih =>
    rw [readRecords] at h
    split at h
    · cases h
    · next hread =>
      have hcode := isCode_of_read_none hread
      have htokens : codeTokens text = [] := by simpa [isCode] using hcode
      refine .blank ?_ ?_ hcode (ih h)
      · simp [NumberedLine.labels, NumberedLine.lexemes, htokens, lexemes]
      · simp [NumberedLine.hasBody, NumberedLine.lexemes, htokens, lexemes]
    · next names hread =>
      obtain ⟨hcode, hform⟩ := lineForm_of_read hread
      obtain ⟨hlabels, hbody⟩ := LineForm.labels_eq ⟨line, text⟩ hform
      have hnames : names ≠ [] := by
        have htokens : lexemes (codeTokens text) ≠ [] := by simpa [isCode, lexemes] using hcode
        generalize lexemes (codeTokens text) = used at hform htokens
        cases hform with
        | labels hnames => exact hnames.names_ne_nil htokens
      subst hlabels
      exact .labels hnames hbody hcode (ih h)
    · next names body hread =>
      obtain ⟨others, hothers, rfl⟩ := map_eq_ok_iff.mp h
      obtain ⟨hcode, hform⟩ := lineForm_of_read hread
      obtain ⟨hlabels, hbody⟩ := LineForm.labels_eq ⟨line, text⟩ hform
      subst hlabels
      refine .body hbody ?_ (ih hothers)
      cases waiting <;> exact hform

def bodyLines (lines : List NumberedLine) : List NumberedLine := lines.filter (·.hasBody)

/-- The lines of code after the last body. -/
def trailingLines (lines : List NumberedLine) : List NumberedLine :=
  lines.filter fun line => isCode line.text && (bodyLines lines).all (·.number < line.number)

section

variable {line : NumberedLine} {lines : List NumberedLine}

theorem bodyLines_cons_of_hasBody (h : line.hasBody = true) :
    bodyLines (line :: lines) = line :: bodyLines lines := List.filter_cons_of_pos h

theorem bodyLines_cons_of_not_hasBody (h : line.hasBody = false) :
    bodyLines (line :: lines) = bodyLines lines := List.filter_cons_of_neg (by simp [h])

theorem trailingLines_cons (hlt : ∀ later ∈ lines, line.number < later.number) :
    trailingLines (line :: lines) =
      if isCode line.text ∧ bodyLines (line :: lines) = [] then line :: trailingLines lines
      else trailingLines lines := by
  have hbefore : ∀ body ∈ bodyLines (line :: lines), line.number ≤ body.number := by
    intro body hm
    obtain rfl | hlater := List.mem_cons.mp (List.mem_of_mem_filter hm)
    · exact Nat.le_refl _
    · exact Nat.le_of_lt (hlt body hlater)
  have hfirst : (isCode line.text && (bodyLines (line :: lines)).all (·.number < line.number)) =
      true ↔ isCode line.text ∧ bodyLines (line :: lines) = [] := by
    rw [Bool.and_eq_true, List.all_eq_true]
    apply and_congr_right
    intro _
    constructor
    · intro hall
      rw [List.eq_nil_iff_forall_not_mem]
      intro body hm
      have hbody := of_decide_eq_true (hall body hm)
      exact absurd hbody (Nat.not_lt.mpr (hbefore body hm))
    · intro hnil
      rw [hnil]
      exact List.forall_mem_nil _
  have hrest : lines.filter (fun later => isCode later.text &&
      (bodyLines (line :: lines)).all (·.number < later.number)) = trailingLines lines := by
    apply List.filter_congr
    intro later hm
    cases hbody : line.hasBody with
    | true =>
      rw [bodyLines_cons_of_hasBody hbody, List.all_cons, decide_eq_true (hlt later hm),
        Bool.true_and]
    | false => rw [bodyLines_cons_of_not_hasBody hbody]
  rw [trailingLines, List.filter_cons, hrest]
  by_cases hc : isCode line.text ∧ bodyLines (line :: lines) = []
  · rw [if_pos (hfirst.mpr hc), if_pos hc]
  · rw [if_neg (fun h => hc (hfirst.mp h)), if_neg hc]

def firstBody? (lines : List NumberedLine) (number : Nat) : Option Nat :=
  ((bodyLines lines).find? (number ≤ ·.number)).map (·.number)

theorem firstBody?_cons_of_not_hasBody (h : line.hasBody = false) (number : Nat) :
    firstBody? (line :: lines) number = firstBody? lines number := by
  rw [firstBody?, bodyLines_cons_of_not_hasBody h]
  rfl

theorem firstBody?_cons_of_le (h : line.hasBody = true) {number : Nat}
    (hle : number ≤ line.number) : firstBody? (line :: lines) number = some line.number := by
  simp [firstBody?, bodyLines_cons_of_hasBody h, hle]

theorem firstBody?_cons_of_lt (h : line.hasBody = true) {number : Nat}
    (hlt : line.number < number) : firstBody? (line :: lines) number = firstBody? lines number := by
  have hnot := Nat.not_le.mpr hlt
  simp [firstBody?, bodyLines_cons_of_hasBody h, hnot]

theorem firstBody?_of_le {number : Nat} (h : ∀ later ∈ lines, number ≤ later.number) :
    firstBody? lines number = (bodyLines lines).head?.map (·.number) := by
  cases hbodies : bodyLines lines with
  | nil => simp [firstBody?, hbodies]
  | cons body bodies =>
    have hm : body ∈ bodyLines lines := hbodies ▸ List.mem_cons_self
    have hle := h body (List.mem_of_mem_filter hm)
    simp [firstBody?, hbodies, hle]

def lastRecord? (lines : List NumberedLine) : Option Record :=
  (trailingLines lines).head?.map fun first =>
    ⟨(trailingLines lines).flatMap (·.labels), some first.number, .finish none⟩

def lastRecordAfter? (waiting : List String) (since : Nat) (lines : List NumberedLine) :
    Option Record :=
  if bodyLines lines = [] ∧ waiting ≠ [] then
    some ⟨waiting ++ (trailingLines lines).flatMap (·.labels), some since, .finish none⟩
  else
    lastRecord? lines

theorem lastRecordAfter?_nil (since : Nat) (lines : List NumberedLine) :
    lastRecordAfter? [] since lines = lastRecord? lines := if_neg fun h => h.2 rfl

variable {waiting : List String} {since : Nat}

theorem lastRecordAfter?_blank (hlt : ∀ later ∈ lines, line.number < later.number)
    (hbody : line.hasBody = false) (hcode : isCode line.text = false) :
    lastRecordAfter? waiting since (line :: lines) = lastRecordAfter? waiting since lines := by
  have htrailing : trailingLines (line :: lines) = trailingLines lines := by
    rw [trailingLines_cons hlt, if_neg (by simp [hcode])]
  rw [lastRecordAfter?, lastRecordAfter?, lastRecord?, lastRecord?, htrailing,
    bodyLines_cons_of_not_hasBody hbody]

theorem lastRecordAfter?_labels (hlt : ∀ later ∈ lines, line.number < later.number)
    (hbody : line.hasBody = false) (hcode : isCode line.text = true) (hlabels : line.labels ≠ []) :
    lastRecordAfter? waiting since (line :: lines) =
      lastRecordAfter? (waiting ++ line.labels)
        (if waiting.isEmpty then line.number else since) lines := by
  have htrailing := trailingLines_cons hlt
  rw [bodyLines_cons_of_not_hasBody hbody] at htrailing
  have hmore : waiting ++ line.labels ≠ [] := by simp [hlabels]
  rw [lastRecordAfter?, lastRecordAfter?, bodyLines_cons_of_not_hasBody hbody]
  by_cases hnone : bodyLines lines = []
  · rw [if_pos ⟨hcode, hnone⟩] at htrailing
    rw [if_pos (⟨hnone, hmore⟩ : bodyLines lines = [] ∧ waiting ++ line.labels ≠ [])]
    cases waiting with
    | nil =>
      rw [if_neg (fun h => h.2 rfl), lastRecord?, htrailing]
      rfl
    | cons name names =>
      rw [if_pos ⟨hnone, List.cons_ne_nil _ _⟩, htrailing, List.flatMap_cons, ← List.append_assoc]
      rfl
  · rw [if_neg (fun h => hnone h.2)] at htrailing
    rw [if_neg (fun h => hnone h.1), if_neg (fun h => hnone h.1), lastRecord?, lastRecord?,
      htrailing]

theorem lastRecordAfter?_body (hlt : ∀ later ∈ lines, line.number < later.number)
    (hbody : line.hasBody = true) :
    lastRecordAfter? waiting since (line :: lines) = lastRecord? lines := by
  have hsome : bodyLines (line :: lines) ≠ [] := by
    rw [bodyLines_cons_of_hasBody hbody]
    exact List.cons_ne_nil _ _
  have htrailing : trailingLines (line :: lines) = trailingLines lines := by
    rw [trailingLines_cons hlt, if_neg (fun h => hsome h.2)]
  rw [lastRecordAfter?, if_neg (fun h => hsome h.1), lastRecord?, lastRecord?, htrailing]

end

def labelPlaces (lines : List NumberedLine) : List (String × Nat) :=
  lines.flatMap fun line => line.labels.map (·, line.number)

theorem map_fst_flatMap {α β : Type} (names : α → List String) (place : α → β) (items : List α) :
    (items.flatMap fun item => (names item).map (·, place item)).map Prod.fst =
      items.flatMap names := by
  rw [List.map_flatMap]
  apply List.flatMap_congr
  intro item _
  rw [List.map_map]
  exact List.map_id _

theorem map_fst_attachments (records : List Record) :
    (attachments records).map Prod.fst = labels records := map_fst_flatMap _ _ records

theorem map_fst_labelPlaces (lines : List NumberedLine) :
    (labelPlaces lines).map Prod.fst = lines.flatMap (·.labels) := map_fst_flatMap _ _ lines

/-- The line of the record that the labels of line `number` belong to. -/
def recordLine? (lines : List NumberedLine) (number : Nat) : Option Nat :=
  firstBody? lines number <|> (lastRecord? lines).bind (·.line)

/-- The record is made of this line, apart from labels that waited for it. -/
structure Record.StandsOn (record : Record) (line : NumberedLine) : Prop where
  line_eq : record.line = some line.number
  form : LineForm (!record.labels.isEmpty) line.lexemes line.labels (some record.body)

namespace Gathered

variable {waiting : List String} {since : Nat} {lines : List NumberedLine} {records : List Record}

/-- The labels that wait, and then those of the lines, go to the first body that follows. -/
theorem attachments_eq (h : Gathered waiting since lines records) (hsorted : InOrder lines)
    {number : Nat} (hle : ∀ line ∈ lines, number ≤ line.number) :
    attachments records =
      waiting.map (·, firstBody? lines number <|>
        (lastRecordAfter? waiting since lines).bind (·.line)) ++
      lines.flatMap fun line => line.labels.map (·, firstBody? lines line.number <|>
        (lastRecordAfter? waiting since lines).bind (·.line)) := by
  induction h generalizing number with
  | done since => rfl
  | @final waiting hwaiting since =>
    have hlast : lastRecordAfter? waiting since [] = _ := if_pos ⟨rfl, hwaiting⟩
    rw [hlast]
    simp [attachments, firstBody?, bodyLines]
  | @blank waiting since line lines records hlabels hbody hcode _ ih =>
    obtain ⟨hlt, hsorted⟩ := List.pairwise_cons.mp hsorted
    rw [ih hsorted fun later hm => hle later (List.mem_cons_of_mem _ hm),
      lastRecordAfter?_blank hlt hbody hcode, List.flatMap_cons, hlabels]
    simp only [firstBody?_cons_of_not_hasBody hbody, List.map_nil, List.nil_append]
  | @labels waiting since line lines records hlabels hbody hcode _ ih =>
    obtain ⟨hlt, hsorted⟩ := List.pairwise_cons.mp hsorted
    have hnumber : firstBody? lines number = firstBody? lines line.number := by
      rw [firstBody?_of_le fun later hm => hle later (List.mem_cons_of_mem _ hm),
        firstBody?_of_le fun later hm => Nat.le_of_lt (hlt later hm)]
    rw [ih hsorted fun later hm => Nat.le_of_lt (hlt later hm),
      lastRecordAfter?_labels hlt hbody hcode hlabels, List.flatMap_cons]
    simp only [firstBody?_cons_of_not_hasBody hbody, hnumber, List.map_append, List.append_assoc]
  | @body waiting since line lines records body hbody hform _ ih =>
    obtain ⟨hlt, hsorted⟩ := List.pairwise_cons.mp hsorted
    have hrest := ih hsorted fun later hm => Nat.le_of_lt (hlt later hm)
    rw [lastRecordAfter?_nil, List.map_nil, List.nil_append] at hrest
    have hlater : (lines.flatMap fun later => later.labels.map (·,
        firstBody? (line :: lines) later.number <|> (lastRecord? lines).bind (·.line))) =
        attachments records := by
      rw [hrest]
      apply List.flatMap_congr
      intro later hm
      rw [firstBody?_cons_of_lt hbody (hlt later hm)]
    rw [lastRecordAfter?_body hlt hbody, List.flatMap_cons, hlater,
      firstBody?_cons_of_le hbody (hle line List.mem_cons_self),
      firstBody?_cons_of_le hbody (Nat.le_refl _)]
    simp [attachments]

theorem exists_own (h : Gathered waiting since lines records) (hsorted : InOrder lines) :
    ∃ own, records = own ++ (lastRecordAfter? waiting since lines).toList ∧
      List.Forall₂ Record.StandsOn own (bodyLines lines) := by
  induction h with
  | done since => exact ⟨[], rfl, .nil⟩
  | @final waiting hwaiting since =>
    have hlast : lastRecordAfter? waiting since [] = _ := if_pos ⟨rfl, hwaiting⟩
    rw [hlast]
    exact ⟨[], by simp [trailingLines], .nil⟩
  | blank _ hbody hcode _ ih =>
    obtain ⟨hlt, hsorted⟩ := List.pairwise_cons.mp hsorted
    rw [lastRecordAfter?_blank hlt hbody hcode, bodyLines_cons_of_not_hasBody hbody]
    exact ih hsorted
  | labels hlabels hbody hcode _ ih =>
    obtain ⟨hlt, hsorted⟩ := List.pairwise_cons.mp hsorted
    rw [lastRecordAfter?_labels hlt hbody hcode hlabels, bodyLines_cons_of_not_hasBody hbody]
    exact ih hsorted
  | body hbody hform _ ih =>
    obtain ⟨hlt, hsorted⟩ := List.pairwise_cons.mp hsorted
    obtain ⟨own, rfl, hown⟩ := ih hsorted
    rw [lastRecordAfter?_body hlt hbody, lastRecordAfter?_nil, bodyLines_cons_of_hasBody hbody]
    exact ⟨_ :: own, rfl, .cons ⟨rfl, hform⟩ hown⟩

end Gathered

theorem map_line_of_standsOn {own : List Record} {bodies : List NumberedLine}
    (h : List.Forall₂ Record.StandsOn own bodies) :
    own.map (·.line) = bodies.map fun body => some body.number := by
  induction h with
  | nil => rfl
  | cons hstands _ ih => rw [List.map_cons, List.map_cons, hstands.line_eq, ih]

theorem pairwise_recordLines {lines : List NumberedLine} (hsorted : InOrder lines) :
    ((bodyLines lines).map (·.number) ++
      (trailingLines lines).head?.toList.map (·.number)).Pairwise (· < ·) := by
  rw [List.pairwise_append, List.pairwise_map]
  refine ⟨hsorted.sublist List.filter_sublist, ?_, ?_⟩
  · cases (trailingLines lines).head? <;> simp
  · intro number hnumber last hlast
    obtain ⟨body, hbody, rfl⟩ := List.mem_map.mp hnumber
    obtain ⟨first, hfirst, rfl⟩ := List.mem_map.mp hlast
    have hm : first ∈ trailingLines lines := List.mem_of_mem_head? (Option.mem_toList.mp hfirst)
    have hall := (Bool.and_eq_true _ _ ▸ (List.mem_filter.mp hm).2).2
    exact of_decide_eq_true (List.all_eq_true.mp hall body hbody)

theorem gathered_of_read {source : String} {document : Document}
    (h : Document.read source = .ok document) :
    Gathered [] 0 (sourceLines source) document.records := by
  obtain ⟨records, hrecords, rfl⟩ := map_eq_ok_iff.mp h
  exact gathered_of_readRecords hrecords

theorem attachments_of_read {source : String} {document : Document}
    (h : Document.read source = .ok document) :
    attachments document.records =
      (labelPlaces (sourceLines source)).map (Prod.map id (recordLine? (sourceLines source))) := by
  have hattach := (gathered_of_read h).attachments_eq (inOrder_sourceLines source)
    fun line _ => Nat.zero_le line.number
  rw [lastRecordAfter?_nil, List.map_nil, List.nil_append] at hattach
  rw [hattach, labelPlaces, List.map_flatMap]
  apply List.flatMap_congr
  intro line _
  rw [List.map_map]
  rfl

/-- Reading keeps all labels in their order. The labels of a line belong to the record of the first
body from that line on or, if there is none, to a last `END` at the first line of code after the
last body. All other records are made of one line each, and the records are in the order of their
lines. -/
theorem Document.read_attaches_labels {source : String} {document : Document}
    (h : Document.read source = .ok document) :
    labels document.records = (sourceLines source).flatMap (·.labels) ∧
    attachments document.records =
      (labelPlaces (sourceLines source)).map (Prod.map id (recordLine? (sourceLines source))) ∧
    (∃ own, document.records = own ++ (lastRecord? (sourceLines source)).toList ∧
      List.Forall₂ Record.StandsOn own (bodyLines (sourceLines source))) ∧
    ∃ numbers : List Nat, document.records.map (·.line) = numbers.map some ∧
      numbers.Pairwise (· < ·) := by
  have hsorted := inOrder_sourceLines source
  have hattach := attachments_of_read h
  obtain ⟨own, hown, hstands⟩ := (gathered_of_read h).exists_own hsorted
  rw [lastRecordAfter?_nil] at hown
  refine ⟨?_, hattach, ⟨own, hown, hstands⟩, _, ?_, pairwise_recordLines hsorted⟩
  · rw [← map_fst_attachments, hattach, ← map_fst_labelPlaces, List.map_map]
    rfl
  · rw [hown, List.map_append, map_line_of_standsOn hstands, List.map_append, List.map_map,
      lastRecord?]
    cases (trailingLines (sourceLines source)).head? <;> rfl

def scatteredSource : String :=
  "top\n\n; x y\r\nloop: again END ; z\nskip END\nlast:\n\n  past edge \n"

theorem Document.read_attaches_labels_scattered :
    ∃ document, Document.read scatteredSource = .ok document ∧
      (sourceLines scatteredSource).flatMap (·.labels) =
        ["top", "loop", "again", "skip", "last", "past", "edge"] ∧
      (labelPlaces (sourceLines scatteredSource)).map
        (Prod.map id (recordLine? (sourceLines scatteredSource))) =
          [("top", some 4), ("loop", some 4), ("again", some 4), ("skip", some 5),
            ("last", some 6), ("past", some 6), ("edge", some 6)] := by
  have hread : Document.read scatteredSource = .ok ⟨[
      ⟨["top", "loop", "again"], some 4, .finish none⟩, ⟨["skip"], some 5, .finish none⟩,
      ⟨["last", "past", "edge"], some 6, .finish none⟩], {}⟩ := by decide +kernel
  obtain ⟨hlabels, hattach, _⟩ := Document.read_attaches_labels hread
  exact ⟨_, hread, hlabels.symm, hattach.symm⟩

end CoreWar.Source
