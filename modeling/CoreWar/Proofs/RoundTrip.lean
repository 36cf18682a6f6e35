import CoreWar.Assembly.Assemble
import CoreWar.Proofs.Lines
import CoreWar.Proofs.Resolution
import CoreWar.Proofs.Scanning

namespace CoreWar

open Source

namespace Expr

def symbols : Expr → List String
  | number _ => []
  | symbol name => [name]
  | binary _ lhs rhs => lhs.symbols ++ rhs.symbols

/-- All symbols are words, which may be keywords. -/
def Worded (e : Expr) : Prop := ∀ name ∈ e.symbols, isWord name.toList = true
  deriving Decidable

def lexemes : Expr → List Lexeme
  | number value =>
    if value < 0 then [.operator .sub, .number value.toInt.natAbs] else [.number value.toInt.natAbs]
  | symbol name => [.word name]
  | binary op lhs rhs => .opening :: ((lhs.lexemes ++ .operator op :: rhs.lexemes) ++ [.closing])

theorem ofNat_natAbs_of_nonneg {value : Int64} (h : 0 ≤ value.toInt) :
    Int64.ofNat value.toInt.natAbs = value := by
  rw [← Int64.ofInt_eq_ofNat, Int.natAbs_of_nonneg h, Int64.ofInt_toInt]

theorem neg_ofNat_natAbs_of_neg {value : Int64} (h : value.toInt < 0) :
    -Int64.ofNat value.toInt.natAbs = value := by
  have habs : (value.toInt.natAbs : Int) = -value.toInt := Int.ofNat_natAbs_of_nonpos (by omega)
  rw [← Int64.ofInt_eq_ofNat, habs, ← Int64.ofInt_neg, Int.neg_neg, Int64.ofInt_toInt]

theorem derives_number (value : Int64) : Derives .unary (number value).lexemes (number value) := by
  have hle := Int64.le_toInt value
  have hlt := Int64.toInt_lt value
  unfold lexemes
  by_cases hneg : value < 0
  · rw [if_pos hneg]
    have hbelow : value.toInt < 0 := by simpa using Int64.lt_iff_toInt_lt.mp hneg
    -- the least number is the only one without a positive counterpart
    by_cases hleast : value = Int64.minValue
    · subst hleast
      exact .least
    · have hne : value.toInt ≠ -2 ^ 63 := by
        intro he
        exact hleast (Int64.toInt_inj.mp (by simpa using he))
      have hminus := Derives.minusNumber
        (.primary (.literal (by omega : value.toInt.natAbs ≤ 2 ^ 63 - 1)))
      rwa [neg_ofNat_natAbs_of_neg hbelow] at hminus
  · rw [if_neg hneg]
    have hnonneg : 0 ≤ value.toInt := by
      rw [Int64.lt_iff_toInt_lt] at hneg
      simpa using hneg
    have hliteral := Derives.literal (by omega : value.toInt.natAbs ≤ 2 ^ 63 - 1)
    rw [ofNat_natAbs_of_nonneg hnonneg] at hliteral
    exact .primary hliteral

theorem derives_binary {op : Operator} {used more : List Lexeme} {lhs rhs : Expr}
    (hl : Derives .unary used lhs) (hr : Derives .unary more rhs) :
    Derives .sum (used ++ .operator op :: more) (.binary op lhs rhs) := by
  cases hop : op.isAdditive with
  | true => exact .sum (isAdditive_iff.mp hop) (.term (.factor hl)) (.factor hr)
  | false => exact .term (.product (not_isAdditive_iff.mp hop) (.factor hl) hr)

theorem derives_lexemes (e : Expr) : Derives .unary e.lexemes e := by
  induction e with
  | number value => exact derives_number value
  | symbol name => exact .primary (.word name)
  | binary op lhs rhs ihl ihr => exact .primary (.brackets (derives_binary ihl ihr))

theorem scans_number (value : Int64) {rest : List Char} {found : List Lexeme}
    (hedge : AtEdge rest) (hrest : Scans rest found) :
    Scans ((Text.signed value).toList ++ rest) ((number value).lexemes ++ found) := by
  have hle := Int64.le_toInt value
  have hlt := Int64.toInt_lt value
  have hdigits : Scans ((toString value.toInt.natAbs).toList ++ rest)
      (.number value.toInt.natAbs :: found) :=
    .number (show _ < 2 ^ 64 by omega) hedge hrest
  unfold Text.signed lexemes
  by_cases hneg : value < 0
  · rw [if_pos hneg, if_pos hneg, String.toList_append]
    exact .mark (Lexeme.ofMark?_symbol .sub) hdigits
  · rw [if_neg hneg, if_neg hneg]
    exact hdigits

theorem scans_text {e : Expr} (h : e.Worded) {rest : List Char} {found : List Lexeme}
    (hedge : AtEdge rest) (hrest : Scans rest found) :
    Scans (e.text.toList ++ rest) (e.lexemes ++ found) := by
  induction e generalizing rest found with
  | number value => exact scans_number value hedge hrest
  | symbol name => exact .word (h name List.mem_cons_self) hedge hrest
  | binary op lhs rhs ihl ihr =>
    have hl : lhs.Worded := fun name hm => h name (List.mem_append_left _ hm)
    have hr : rhs.Worded := fun name hm => h name (List.mem_append_right _ hm)
    have hblank : isSeparator ' ' := by decide
    have hclosing : Scans (')' :: rest) (.closing :: found) := .mark rfl hrest
    have hright := ihr hr (atEdge_cons (by decide) rest) hclosing
    have hop := Scans.mark (Lexeme.ofMark?_symbol op) (.separator hblank hright)
    have hleft := ihl hl (atEdge_cons (by decide) _) (.separator hblank hop)
    have hopening := Scans.mark (by decide : Lexeme.ofMark? '(' = some .opening) hleft
    simpa [text, lexemes] using hopening

theorem word_mem_of_derives {rank : Rank} {used : List Lexeme} {e : Expr}
    (h : Derives rank used e) : ∀ name ∈ e.symbols, .word name ∈ used := by
  induction h with
  | literal _ | least | minusNumber _ _ => exact nofun
  | word name => simp [symbols]
  | primary _ ih | factor _ ih | term _ ih => exact ih
  | brackets _ ih =>
    intro name hm
    exact .tail _ (List.mem_append_left _ (ih name hm))
  | minus _ _ ih | plus _ ih =>
    intro name hm
    exact .tail _ (ih name hm)
  | product _ _ _ ihl ihr | sum _ _ _ ihl ihr =>
    intro name hm
    obtain hm | hm := List.mem_append.mp hm
    · exact List.mem_append_left _ (ihl name hm)
    · exact List.mem_append_right _ (.tail _ (ihr name hm))

end Expr

namespace DraftOperand

def text (operand : DraftOperand) : String :=
  operand.mode.elim "" (String.singleton ·.sigil) ++ operand.expr.text

def lexemes (operand : DraftOperand) : List Lexeme :=
  operand.mode.elim [] ([.sigil ·]) ++ operand.expr.lexemes

theorem operandForm_lexemes (operand : DraftOperand) : OperandForm operand.lexemes operand := by
  obtain ⟨mode, e⟩ := operand
  have hexpr : Derives .sum e.lexemes e := .term (.factor e.derives_lexemes)
  cases mode with
  | none => exact .plain hexpr
  | some mode => exact .sigil mode hexpr

theorem scans_text {operand : DraftOperand} (h : operand.expr.Worded) {rest : List Char}
    {found : List Lexeme} (hedge : AtEdge rest) (hrest : Scans rest found) :
    Scans (operand.text.toList ++ rest) (operand.lexemes ++ found) := by
  obtain ⟨mode, e⟩ := operand
  have hexpr := Expr.scans_text h hedge hrest
  cases mode with
  | none => simpa [text, lexemes] using hexpr
  | some mode => simpa [text, lexemes] using Scans.mark (Lexeme.ofMark?_sigil mode) hexpr

end DraftOperand

namespace Draft

def exprs (draft : Draft) : List Expr := draft.operands.map (·.expr)

/-- The text of a draft, with these words for its opcode and its modifier. -/
def textWith (draft : Draft) (word : String) (modifier : Option String) : String :=
  word ++ (modifier.elim "" ("." ++ ·) ++
    (" " ++ (draft.a.text ++ draft.b.elim "" (", " ++ ·.text))))

def text (draft : Draft) : String :=
  draft.textWith draft.opcode.mnemonic (draft.modifier.map (·.name))

structure Spelled (draft : Draft) (word : String) (modifier : Option String) : Prop where
  opcode : Text.sameName word draft.opcode.mnemonic
  modifier : modifier.Rel (fun name modifier => Text.sameName name modifier.name) draft.modifier

def lexemesWith (draft : Draft) (modifier : Option String) : List Lexeme :=
  modifier.elim [] ([.dot, .word ·]) ++ (draft.a.lexemes ++ draft.b.elim [] (.comma :: ·.lexemes))

section

variable {draft : Draft} {word : String} {modifier : Option String}

theorem spelled_mnemonic (draft : Draft) :
    draft.Spelled draft.opcode.mnemonic (draft.modifier.map (·.name)) := by
  refine ⟨beq_self_eq_true _, ?_⟩
  cases draft.modifier with
  | none => exact .none
  | some modifier => exact .some (beq_self_eq_true _)

theorem Spelled.isWord_opcode (h : draft.Spelled word modifier) : isWord word.toList := by
  refine isWord_of_sameName h.opcode ?_
  cases draft.opcode <;> decide

theorem Spelled.isWord_modifier (h : draft.Spelled word modifier) :
    ∀ name ∈ modifier, isWord name.toList := by
  obtain ⟨opcode, modifier', a, b⟩ := draft
  cases h.modifier with
  | none => exact nofun
  | @some name modifier hname =>
    rintro _ ⟨⟩
    exact isWord_of_sameName hname (by cases modifier <;> decide)

theorem Spelled.draftForm (h : draft.Spelled word modifier) :
    DraftForm draft.opcode (draft.lexemesWith modifier) draft := by
  obtain ⟨opcode, modifier', a, b⟩ := draft
  have hform : ModifierForm (modifier.elim [] ([.dot, .word ·])) modifier' := by
    cases h.modifier with
    | some hname => exact .dot hname
    | none => exact .absent
  cases b with
  | none =>
    have hlone : DraftForm opcode _ _ := .lone hform a.operandForm_lexemes
    simpa [lexemesWith] using hlone
  | some b => exact .pair hform a.operandForm_lexemes b.operandForm_lexemes

theorem scans_second {b : Option DraftOperand} (h : ∀ operand ∈ b, operand.expr.Worded) :
    AtEdge (b.elim "" (", " ++ ·.text)).toList ∧
      Scans (b.elim "" (", " ++ ·.text)).toList (b.elim [] (.comma :: ·.lexemes)) := by
  cases b with
  | none => exact ⟨atEdge_nil, .nil⟩
  | some b =>
    have hb : Scans (b.text.toList ++ []) (b.lexemes ++ []) :=
      DraftOperand.scans_text (h b rfl) atEdge_nil .nil
    rw [List.append_nil, List.append_nil] at hb
    have hcomma : Scans (',' :: ' ' :: b.text.toList) _ := .mark rfl (.separator (by decide) hb)
    have htext : (", " ++ b.text).toList = ',' :: ' ' :: b.text.toList := by simp
    simp only [Option.elim_some, htext]
    exact ⟨atEdge_cons (by decide) _, hcomma⟩

theorem scans_modifier (h : ∀ name ∈ modifier, isWord name.toList) {rest : List Char}
    {found : List Lexeme} (hedge : AtEdge rest) (hrest : Scans rest found) :
    AtEdge ((modifier.elim "" ("." ++ ·)).toList ++ rest) ∧
      Scans ((modifier.elim "" ("." ++ ·)).toList ++ rest)
        (modifier.elim [] ([.dot, .word ·]) ++ found) := by
  cases modifier with
  | none => exact ⟨hedge, hrest⟩
  | some name =>
    have hdot : Scans ('.' :: (name.toList ++ rest)) _ := .mark rfl (.word (h name rfl) hedge hrest)
    have htext : ("." ++ name).toList ++ rest = '.' :: (name.toList ++ rest) := by simp
    simp only [Option.elim_some, htext]
    exact ⟨atEdge_cons (by decide) _, hdot⟩

theorem Spelled.scans_textWith (h : draft.Spelled word modifier)
    (hexprs : ∀ e ∈ draft.exprs, e.Worded) :
    Scans (draft.textWith word modifier).toList (.word word :: draft.lexemesWith modifier) := by
  obtain ⟨ha, hb⟩ := List.forall_mem_cons.mp hexprs
  have hsecond := scans_second (b := draft.b) (by simpa using hb)
  have hfirst := DraftOperand.scans_text ha hsecond.1 hsecond.2
  have hblank : Scans (' ' :: _) _ := .separator (by decide) hfirst
  have hafter := scans_modifier h.isWord_modifier (atEdge_cons (by decide) _) hblank
  have htext := Scans.word h.isWord_opcode hafter.1 hafter.2
  simpa [textWith, lexemesWith] using htext

end

end Draft

namespace Source

theorem readDraftText_eq_ok_iff {text : String} {draft : Draft} :
    readDraftText text = .ok draft ↔ readInstruction text.toList = .ok draft := by
  rw [readDraftText]
  cases readInstruction text.toList <;> simp

/-- A draft is read back from its text. -/
theorem readDraftText_textWith {draft : Draft} {word : String} {modifier : Option String}
    (h : draft.Spelled word modifier) (hexprs : ∀ e ∈ draft.exprs, e.Worded) :
    readDraftText (draft.textWith word modifier) = .ok draft := by
  obtain ⟨tokens, hscan, hlexemes⟩ := h.scans_textWith hexprs 1
  rw [readDraftText_eq_ok_iff, readInstruction_eq_ok_iff]
  refine ⟨tokens, hscan, ?_⟩
  rw [hlexemes]
  exact .instruction h.opcode h.draftForm

theorem readDraftText_text {draft : Draft} (h : ∀ e ∈ draft.exprs, e.Worded) :
    readDraftText draft.text = .ok draft :=
  readDraftText_textWith draft.spelled_mnemonic h

def Body.exprs : Body → List Expr
  | instruction draft => draft.exprs
  | origin e | equate e => [e]
  | finish target => target.toList

theorem OperandForm.word_mem {used : List Lexeme} {operand : DraftOperand}
    (h : OperandForm used operand) : ∀ name ∈ operand.expr.symbols, .word name ∈ used := by
  cases h with
  | plain h => exact Expr.word_mem_of_derives h
  | sigil mode h => exact fun name hm => .tail _ (Expr.word_mem_of_derives h name hm)

theorem DraftForm.word_mem {opcode : Opcode} {used : List Lexeme} {draft : Draft}
    (h : DraftForm opcode used draft) :
    ∀ e ∈ draft.exprs, ∀ name ∈ e.symbols, .word name ∈ used := by
  cases h with
  | lone _ ha =>
    rintro e hm name hname
    obtain rfl := List.mem_singleton.mp hm
    exact List.mem_append_right _ (ha.word_mem name hname)
  | pair _ ha hb =>
    rintro e hm name hname
    obtain rfl | hm := List.mem_cons.mp hm
    · exact List.mem_append_right _ (List.mem_append_left _ (ha.word_mem name hname))
    · obtain rfl := List.mem_singleton.mp hm
      exact List.mem_append_right _ (List.mem_append_right _ (.tail _ (hb.word_mem name hname)))

theorem BodyForm.word_mem {labelled : Bool} {used : List Lexeme} {body : Body}
    (h : BodyForm labelled used body) :
    ∀ e ∈ body.exprs, ∀ name ∈ e.symbols, .word name ∈ used := by
  cases h with
  | instruction _ h => exact fun e hm name hname => .tail _ (h.word_mem e hm name hname)
  | finish _ => exact nofun
  | origin _ h | finishAt _ h | equate _ _ h =>
    intro e hm name hname
    obtain rfl := List.mem_singleton.mp hm
    exact .tail _ (Expr.word_mem_of_derives h name hname)

theorem worded_of_readDraftText {text : String} {draft : Draft}
    (h : readDraftText text = .ok draft) : ∀ e ∈ draft.exprs, e.Worded := by
  rw [readDraftText_eq_ok_iff, readInstruction_eq_ok_iff] at h
  obtain ⟨tokens, hscan, hform⟩ := h
  exact fun e hm name hname => isWord_of_mem_scan hscan (hform.word_mem e hm name hname)

theorem worded_of_read {pending : Bool} {text : List Char} {names : List String} {body : Body}
    (h : Line.read pending text = .ok (some ⟨names, some body⟩)) :
    ∀ e ∈ body.exprs, e.Worded := by
  obtain ⟨tokens, hscan, hform⟩ := Line.exists_lineForm_of_read h
  intro e hm name hname
  apply isWord_of_mem_scan hscan
  generalize lexemes tokens = used at hform ⊢
  cases hform with
  | body _ hbody => exact List.mem_append_right _ (hbody.word_mem e hm name hname)

theorem worded_of_readRecords {line since : Nat} {waiting : List String} {texts : List (List Char)}
    {records : List Record} (h : readRecords line waiting since texts = .ok records) :
    ∀ record ∈ records, ∀ e ∈ record.body.exprs, e.Worded := by
  induction texts generalizing line since waiting records with
  | nil =>
    rw [readRecords] at h
    cases h
    by_cases hwaiting : waiting.isEmpty
    · rw [if_pos hwaiting]
      exact List.forall_mem_nil _
    · rw [if_neg hwaiting]
      exact List.forall_mem_singleton.mpr (List.forall_mem_nil _)
  | cons text texts ih =>
    rw [readRecords] at h
    split at h
    · cases h
    · exact ih h
    · exact ih h
    · next names body hread =>
      obtain ⟨more, hmore, rfl⟩ := map_eq_ok_iff.mp h
      exact List.forall_mem_cons.mpr ⟨worded_of_read hread, ih hmore⟩

theorem worded_of_documentRead {source : String} {document : Document}
    (h : Document.read source = .ok document) :
    ∀ record ∈ document.records, ∀ e ∈ record.body.exprs, e.Worded := by
  obtain ⟨records, hrecords, rfl⟩ := map_eq_ok_iff.mp h
  exact worded_of_readRecords hrecords

/-- Any spelling of an instruction with bracketed expressions over words is read as just that
instruction, and whatever was read has such expressions, so that writing and reading it again gives
the same. -/
theorem text_reads_back :
    (∀ (draft : Draft) (word : String) (modifier : Option String),
      draft.Spelled word modifier → (∀ e ∈ draft.exprs, e.Worded) →
      readDraftText (draft.textWith word modifier) = .ok draft) ∧
    (∀ text draft, readDraftText text = .ok draft →
      (∀ e ∈ draft.exprs, e.Worded) ∧ readDraftText draft.text = .ok draft) ∧
    (∀ source document, Document.read source = .ok document →
      ∀ record ∈ document.records, ∀ e ∈ record.body.exprs, e.Worded ∧
        ∀ opcode modifier mode, readDraftText (Draft.text ⟨opcode, modifier, ⟨mode, e⟩, none⟩) =
          .ok ⟨opcode, modifier, ⟨mode, e⟩, none⟩) := by
  refine ⟨fun _ _ _ => readDraftText_textWith, ?_, ?_⟩
  · intro text draft h
    exact ⟨worded_of_readDraftText h, readDraftText_text (worded_of_readDraftText h)⟩
  · intro source document h record hm e he
    have hworded := worded_of_documentRead h record hm e he
    refine ⟨hworded, fun opcode modifier mode => readDraftText_text ?_⟩
    exact List.forall_mem_singleton.mpr hworded

def knottyDraft : Draft where
  opcode := .slt
  modifier := some .ba
  a := ⟨some .preDecrement, .binary .sub (.symbol "jmp") (.number Int64.minValue)⟩
  b := some ⟨none, .binary .sub (.number 0) (.symbol "_x1")⟩

theorem read_signedLine :
    Document.read (String.ofList signedLine) =
      .ok ⟨[⟨["far", "away"], some 1, .equate signedExpr⟩], {}⟩ := by
  have hlines : Text.lines (String.ofList signedLine).toList = [signedLine] := by decide +kernel
  have hline : Line.read false signedLine =
      .ok (some ⟨["far", "away"], some (.equate signedExpr)⟩) :=
    (Line.read_eq_ok_iff scan_signedLine comment?_signedLine (List.cons_ne_nil _ _)).mpr
      lineForm_signedLine
  have hrecords : readRecords 1 [] 0 [signedLine] =
      .ok [⟨["far", "away"], some 1, .equate signedExpr⟩] := by
    simp [readRecords, hline, Except.map]
  have hmetadata : readMetadata [signedLine] = {} := by
    simp [readMetadata, comment?_signedLine]
  rw [Document.read, hlines, hrecords, hmetadata]
  rfl

theorem text_reads_back_knottyDraft :
    readDraftText "sLt.bA <(jmp - -9223372036854775808), (0 - _x1)" = .ok knottyDraft ∧
    readDraftText "SLT.BA <(jmp - -9223372036854775808), (0 - _x1)" = .ok knottyDraft ∧
    Document.read (String.ofList signedLine) =
      .ok ⟨[⟨["far", "away"], some 1, .equate signedExpr⟩], {}⟩ ∧
    readDraftText "JMP @((0 - (x - 2)) % -9223372036854775808)" =
      .ok ⟨.jmp, none, ⟨some .indirect, signedExpr⟩, none⟩ := by
  obtain ⟨hwritten, hdraft, hdocument⟩ := text_reads_back
  have hspelled : knottyDraft.Spelled "sLt" (some "bA") :=
    ⟨by decide +kernel, .some (by decide +kernel)⟩
  have hwith : knottyDraft.textWith "sLt" (some "bA") =
      "sLt.bA <(jmp - -9223372036854775808), (0 - _x1)" := by decide +kernel
  have htext : knottyDraft.text = "SLT.BA <(jmp - -9223372036854775808), (0 - _x1)" := by
    decide +kernel
  have hjump : Draft.text ⟨.jmp, none, ⟨some .indirect, signedExpr⟩, none⟩ =
      "JMP @((0 - (x - 2)) % -9223372036854775808)" := by decide +kernel
  have hread := hwritten knottyDraft "sLt" (some "bA") hspelled (by decide +kernel)
  have hequate := (hdocument _ _ read_signedLine _ (.head _) _ (.head _)).2 .jmp none
    (some .indirect)
  rw [← hwith, ← htext, ← hjump]
  exact ⟨hread, (hdraft _ _ hread).2, read_signedLine, hequate⟩

end Source

namespace Instruction

def draft (insn : Instruction) : Draft where
  opcode := insn.opcode
  modifier := some insn.modifier
  a := ⟨some insn.a.mode, .number insn.a.value⟩
  b := some ⟨some insn.b.mode, .number insn.b.value⟩

theorem text_draft (insn : Instruction) : insn.draft.text = insn.text := by
  simp [draft, Draft.text, Draft.textWith, DraftOperand.text, Expr.text, text, Operand.text,
    String.append_assoc]

theorem resolves_draft (table : SymbolTable) (pc : Nat) (insn : Instruction) :
    table.Resolves pc insn.draft insn := by
  refine ⟨rfl, rfl, ?_⟩
  rintro (_ | _)
  · exact ⟨rfl, SymbolTable.evaluate_eq_ok_iff.mpr (.number _)⟩
  · exact ⟨rfl, SymbolTable.evaluate_eq_ok_iff.mpr (.number _)⟩

/-- Every instruction is assembled from its text. -/
theorem assemble_text (insn : Instruction) : assemble insn.text = .ok insn := by
  have hexprs : ∀ e ∈ insn.draft.exprs, e.Worded := by
    simp [draft, Draft.exprs, Draft.operands, Expr.Worded, Expr.symbols]
  have hread := readDraftText_text hexprs
  rw [text_draft] at hread
  rw [assemble, hread]
  exact SymbolTable.resolve_eq_ok_iff.mpr (resolves_draft {} 0 insn)

end Instruction

end CoreWar
