import CoreWar.Proofs.Assembly
import CoreWar.Proofs.Documents
import CoreWar.Proofs.RoundTrip

namespace CoreWar

def Program.lone (insn : Instruction) : Program where
  code := [insn]
  start := 0
  start_lt := Nat.zero_lt_one

namespace Source

variable {c : Char}

theorem scan_blank {cs : List Char} (h : Text.isBlank c) (hc : ¬ isSeparator c) (column : Nat) :
    scan column (c :: cs) = .error ⟨column, .unexpectedCharacter c⟩ := by
  have hspace := toNat_of_isBlank h
  have hdigit : ¬ c.isDigit := by
    rw [isDigit_iff]
    omega
  have hword : ¬ isWordStart c := by
    intro hword
    have := toNat_of_isWordStart hword
    omega
  have hmark : Lexeme.ofMark? c = none := by
    rw [Option.eq_none_iff_forall_ne_some]
    intro lexeme hlexeme
    have := toNat_of_mem_marks (Lexeme.ofMark?_cases hlexeme).1
    omega
  rw [scan, if_neg (ne_semicolon_of_isBlank h), if_neg hc, if_neg hdigit, if_neg hword, hmark]

theorem scan_of_blanks {blanks text : List Char} (hblanks : ∀ c ∈ blanks, Text.isBlank c)
    {column : Nat} {tokens : List Token} (h : scan column (blanks ++ text) = .ok tokens) :
    ∃ start, scan start text = .ok tokens := by
  induction blanks generalizing column with
  | nil => exact ⟨column, h⟩
  | cons c blanks ih =>
    obtain ⟨hc, hrest⟩ := List.forall_mem_cons.mp hblanks
    rw [List.cons_append] at h
    by_cases hseparator : isSeparator c
    · rw [scan_separator hseparator] at h
      exact ih hrest h
    · rw [scan_blank hc hseparator] at h
      cases h

theorem comment?_of_isWord {blanks word : List Char} (hblanks : ∀ c ∈ blanks, Text.isBlank c)
    (hword : isWord word) (rest : List Char) : comment? (blanks ++ (word ++ rest)) = none := by
  cases word with
  | nil => cases hword
  | cons c cs =>
    have hstart : isWordStart c := (Bool.and_eq_true_iff.mp hword).1
    have hstops : ∀ d ∈ (c :: cs ++ rest).head?, Text.isBlank d = false := by
      rintro _ ⟨⟩
      exact not_isBlank_of_isWordStart hstart
    rw [comment?, Text.trimStart_append hblanks hstops]
    split
    · next he =>
      cases he
      exact absurd hstart (by decide)
    · rfl

/-- After white space the text starts with this opcode as a whole word. -/
def OpensWith (opcode : Opcode) (text : List Char) : Prop :=
  ∃ blanks word rest, text = blanks ++ (word ++ rest) ∧ (∀ c ∈ blanks, Text.isBlank c) ∧
    Text.sameName (String.ofList word) opcode.mnemonic ∧ AtEdge rest

section

variable {opcode : Opcode} {text : List Char}

theorem isWord_of_mnemonic {word : List Char}
    (h : Text.sameName (String.ofList word) opcode.mnemonic) : isWord word := by
  have hword : isWord (String.ofList word).toList :=
    isWord_of_sameName h (by cases opcode <;> decide)
  rwa [String.toList_ofList] at hword

theorem OpensWith.comment?_eq_none (h : OpensWith opcode text) : comment? text = none := by
  obtain ⟨blanks, word, rest, rfl, hblanks, hname, -⟩ := h
  exact comment?_of_isWord hblanks (isWord_of_mnemonic hname) rest

theorem OpensWith.scan_eq (h : OpensWith opcode text) {tokens : List Token}
    (hscan : scan 1 text = .ok tokens) :
    ∃ word column more, tokens = ⟨.word word, column⟩ :: more ∧
      Text.sameName word opcode.mnemonic := by
  obtain ⟨blanks, word, rest, rfl, hblanks, hname, hedge⟩ := h
  obtain ⟨column, hstart⟩ := scan_of_blanks hblanks hscan
  rw [scan_word (isWord_of_mnemonic hname) hedge, map_eq_ok_iff] at hstart
  obtain ⟨more, _, rfl⟩ := hstart
  exact ⟨_, column, more, rfl, hname⟩

/-- A line that starts with an opcode is read as an instruction without labels. -/
theorem OpensWith.read_eq (h : OpensWith opcode text) (pending : Bool) :
    Line.read pending text =
      (readInstruction text).map fun draft => some ⟨[], some (.instruction draft)⟩ := by
  rw [Line.read, h.comment?_eq_none, readInstruction]
  cases hscan : scan 1 text with
  | error refusal => rfl
  | ok tokens =>
    obtain ⟨word, column, more, rfl, hname⟩ := h.scan_eq hscan
    have hkeyword : Keyword.ofWord? word = some (.opcode opcode) :=
      Keyword.ofWord?_eq_some_iff.mpr hname
    have hlabels := (AtBody.keyword (.opcode opcode) hname column more).readLabels_eq
    simp only [Option.isSome_none, Bool.false_eq_true, if_false, hlabels, readBody, hkeyword]
    dsimp only [bind, Except.bind]
    rw [hkeyword]
    dsimp only
    cases readDraft (endColumn text) opcode more with
    | error refusal => rfl
    | ok result =>
      obtain ⟨draft, _ | ⟨token, rest⟩⟩ := result
      · rfl
      · rfl

end

section

variable {opcode : Opcode} {text : String}

theorem OpensWith.ne_nil {text : List Char} (h : OpensWith opcode text) : text ≠ [] := by
  obtain ⟨blanks, word, rest, rfl, _, hname, _⟩ := h
  have hword := isWord_of_mnemonic hname
  cases word with
  | nil => cases hword
  | cons c cs => simp

theorem OpensWith.documentRead_eq (h : OpensWith opcode text.toList)
    (hline : '\n' ∉ text.toList) :
    Document.read text =
      (readDraftText text).map fun draft => ⟨[⟨[], some 1, .instruction draft⟩], {}⟩ := by
  have hmetadata : readMetadata [text.toList] = {} := by
    simp [readMetadata, h.comment?_eq_none]
  rw [Document.read, Text.lines_of_not_mem h.ne_nil hline, hmetadata, readRecords,
    h.read_eq, readDraftText]
  cases readInstruction text.toList <;> rfl

theorem assembleRecords_lone (draft : Draft) :
    assembleRecords [⟨[], some 1, .instruction draft⟩] =
      ((SymbolTable.resolve {} 0 draft).mapError (.atLine 1)).map Program.lone := by
  cases hresolve : SymbolTable.resolve {} 0 draft with
  | error cause =>
    have hlocate : cause.locate (some 1) = .atLine 1 cause := by
      cases SymbolTable.isBodyFault_of_resolve hresolve <;> rfl
    have hpass : assembleFrom {} 0 none [⟨[], some 1, .instruction draft⟩] =
        .error (.atLine 1 cause) :=
      bind_eq_error_iff.mpr (.inl (mapError_eq_error_iff.mpr ⟨cause, hresolve, hlocate⟩))
    exact bind_eq_error_iff.mpr (.inr ⟨{}, rfl, bind_eq_error_iff.mpr (.inl hpass)⟩)
  | ok insn =>
    have hpass : assembleFrom {} 0 none [⟨[], some 1, .instruction draft⟩] = .ok ([insn], none) :=
      bind_eq_ok_iff.mpr ⟨insn, mapError_eq_ok_iff.mpr hresolve, rfl⟩
    have hcode : Program.ofCode [insn] 0 = .ok (.lone insn) :=
      ofCode_eq_ok_iff.mpr ⟨rfl, rfl, rfl⟩
    exact bind_eq_ok_iff.mpr ⟨{}, rfl, bind_eq_ok_iff.mpr ⟨_, hpass, hcode⟩⟩

theorem OpensWith.assemble_eq (h : OpensWith opcode text.toList) (hline : '\n' ∉ text.toList) :
    Program.assemble text = readDraftText text >>= fun draft =>
      ((SymbolTable.resolve {} 0 draft).mapError (.atLine 1)).map Program.lone := by
  rw [Program.assemble, h.documentRead_eq hline]
  cases readDraftText text with
  | error error => rfl
  | ok draft =>
    change (assembleRecords [⟨[], some 1, .instruction draft⟩] >>= _) =
      ((SymbolTable.resolve {} 0 draft).mapError (.atLine 1)).map Program.lone
    rw [assembleRecords_lone]
    cases SymbolTable.resolve {} 0 draft <;> rfl

/-- One line that starts with an opcode gives the same alone and as a source: the same fault, or one
record without labels; the same instruction as the whole program, or the same error at line 1. -/
theorem lone_line_agrees (hline : '\n' ∉ text.toList) (h : OpensWith opcode text.toList) :
    (∀ error, readDraftText text = .error error ↔ Document.read text = .error error) ∧
    (∀ draft, readDraftText text = .ok draft →
      Document.read text = .ok ⟨[⟨[], some 1, .instruction draft⟩], {}⟩) ∧
    (∀ insn, Instruction.assemble text = .ok insn ↔
      ∃ program, Program.assemble text = .ok program ∧ program.code = [insn] ∧
        program.start = 0) ∧
    ∀ draft error, readDraftText text = .ok draft →
      SymbolTable.resolve {} 0 draft = .error error →
      Program.assemble text = .error (.atLine 1 error) := by
  rw [h.documentRead_eq hline, h.assemble_eq hline, Instruction.assemble]
  refine ⟨fun error => map_eq_error_iff.symm, fun draft hread => ?_, fun insn => ?_, ?_⟩
  · rw [hread]
    rfl
  · simp only [bind_eq_ok_iff, map_eq_ok_iff, mapError_eq_ok_iff]
    constructor
    · rintro ⟨draft, hread, hresolve⟩
      exact ⟨_, ⟨draft, hread, insn, hresolve, rfl⟩, rfl, rfl⟩
    · rintro ⟨_, ⟨draft, hread, other, hresolve, rfl⟩, hcode, _⟩
      obtain rfl : other = insn := List.singleton_inj.mp hcode
      exact ⟨draft, hread, hresolve⟩
  · intro draft error hread hresolve
    rw [hread]
    exact map_eq_error_iff.mpr (mapError_eq_error_iff.mpr ⟨error, hresolve, rfl⟩)

def strayLine : String := "\t mov x, # 2 ; é\r"

def strayDraft : Draft where
  opcode := .mov
  modifier := none
  a := ⟨none, .symbol "x"⟩
  b := some ⟨some .immediate, .number 2⟩

theorem opensWith_strayLine : OpensWith .mov strayLine.toList :=
  ⟨['\t', ' '], ['m', 'o', 'v'], " x, # 2 ; é\r".toList, by decide,
    List.all_eq_true.mp (by decide), by decide +kernel, atEdge_cons (by decide) _⟩

theorem readDraftText_strayLine : readDraftText strayLine = .ok strayDraft := by
  rw [readDraftText_eq_ok_iff, readInstruction_eq_ok_iff]
  have hscan : scan 1 strayLine.toList = .ok [⟨.word "mov", 3⟩, ⟨.word "x", 7⟩, ⟨.comma, 8⟩,
      ⟨.sigil .immediate, 10⟩, ⟨.number 2, 12⟩] := by decide +kernel
  have hx : OperandForm [.word "x"] ⟨none, .symbol "x"⟩ :=
    .plain (.term (.factor (.primary (.word "x"))))
  have htwo : OperandForm [.sigil .immediate, .number 2] ⟨some .immediate, .number 2⟩ :=
    .sigil .immediate (.term (.factor (.primary (.literal (by decide)))))
  exact ⟨_, hscan, .instruction (by decide +kernel) (.pair .absent hx htwo)⟩

theorem lone_line_agrees_strayLine :
    readDraftText strayLine = .ok strayDraft ∧
    Document.read strayLine = .ok ⟨[⟨[], some 1, .instruction strayDraft⟩], {}⟩ ∧
    SymbolTable.resolve {} 0 strayDraft = .error (.undefinedSymbol "x") ∧
    Program.assemble strayLine = .error (.atLine 1 (.undefinedSymbol "x")) ∧
    Document.read "\r mov.q" = .error (.malformed 1 7 (.unknownModifier "q")) := by
  have hline : '\n' ∉ strayLine.toList := by decide
  have hx : SymbolTable.evaluate {} (.symbol "x") 0 = .error (.undefinedSymbol "x") := by
    rw [SymbolTable.evaluate, SymbolTable.evaluateIn]
    rfl
  have hresolve : SymbolTable.resolve {} 0 strayDraft = .error (.undefinedSymbol "x") :=
    bind_eq_error_iff.mpr (.inl (bind_eq_error_iff.mpr (.inl (map_eq_error_iff.mpr hx))))
  obtain ⟨_, hrecord, _, herror⟩ := lone_line_agrees hline opensWith_strayLine
  have hopens : OpensWith .mov "\r mov.q".toList :=
    ⟨['\r', ' '], ['m', 'o', 'v'], ['.', 'q'], by decide, List.all_eq_true.mp (by decide),
      by decide +kernel, atEdge_cons (by decide) _⟩
  exact ⟨readDraftText_strayLine, hrecord _ readDraftText_strayLine, hresolve,
    herror _ _ readDraftText_strayLine hresolve,
    ((lone_line_agrees (by decide) hopens).1 _).mp (by decide +kernel)⟩

end

end Source

end CoreWar
