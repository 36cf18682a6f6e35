import CoreWar.Proofs.Columns
import Mathlib.Data.List.Chain
import Mathlib.Tactic.IntervalCases

namespace CoreWar

namespace Text

theorem numeral_concat (digits : List Char) (c : Char) :
    numeral (digits ++ [c]) = 10 * numeral digits + (c.toNat - 48) := by
  rw [numeral, Nat.ofDigitChars_eq_foldl, List.foldl_append, ← Nat.ofDigitChars_eq_foldl]
  rfl

theorem numeral_zeros_append (zeros : Nat) (digits : List Char) :
    numeral (List.replicate zeros '0' ++ digits) = numeral digits := by
  induction zeros with
  | zero => rfl
  | succ zeros ih => exact ih

theorem toDigits_of_isDigit {c : Char} (h : c.isDigit) : Nat.toDigits 10 (c.toNat - 48) = [c] := by
  obtain ⟨hlow, hhigh⟩ := Source.isDigit_iff.mp h
  rw [← Char.ofNat_toNat c]
  generalize c.toNat = n at *
  interval_cases n <;> rfl

theorem exists_zeros_append_toDigits {digits : List Char} (hne : digits ≠ [])
    (h : ∀ c ∈ digits, c.isDigit) :
    ∃ zeros, List.replicate zeros '0' ++ Nat.toDigits 10 (numeral digits) = digits := by
  induction digits using List.reverseRecOn with
  | nil => exact absurd rfl hne
  | append_singleton digits c ih =>
    obtain ⟨hdigits, hc⟩ := List.forall_mem_append.mp h
    have hdigit : c.isDigit := hc c List.mem_cons_self
    have hlast := toDigits_of_isDigit hdigit
    rw [numeral_concat]
    obtain rfl | hmore := eq_or_ne digits []
    · rw [← Nat.zero_add (c.toNat - 48)] at hlast
      exact ⟨0, hlast⟩
    obtain ⟨zeros, hzeros⟩ := ih hmore hdigits
    obtain hzero | hpos := Nat.eq_zero_or_pos (numeral digits)
    · -- All digits so far are zeros, so the last one stands alone.
      refine ⟨zeros + 1, ?_⟩
      rw [hzero, Nat.toDigits_zero, ← List.replicate_succ'] at hzeros
      rw [hzero, Nat.mul_zero, Nat.zero_add, hlast, hzeros]
    · refine ⟨zeros, ?_⟩
      obtain ⟨_, hhigh⟩ := Source.isDigit_iff.mp hdigit
      rw [← Nat.toDigits_append_toDigits (by decide) hpos (by omega), hlast, ← List.append_assoc,
        hzeros]

end Text

namespace Source

def IsLetter (c : Char) : Prop := 'A' ≤ c ∧ c ≤ 'Z' ∨ 'a' ≤ c ∧ c ≤ 'z' ∨ c = '_'

def IsDecimal (c : Char) : Prop := '0' ≤ c ∧ c ≤ '9'

def punctuation : List (Char × Lexeme) :=
  [('#', .sigil .immediate), ('$', .sigil .direct), ('@', .sigil .indirect),
    ('<', .sigil .preDecrement), ('>', .sigil .postIncrement), ('+', .operator .add),
    ('-', .operator .sub), ('*', .operator .mul), ('/', .operator .div), ('%', .operator .mod),
    ('(', .opening), (')', .closing), (',', .comma), ('.', .dot), (':', .colon)]

section

variable {c : Char}

theorem isLetter_iff : IsLetter c ↔ isWordStart c := by
  have hupper : 'A' ≤ c ∧ c ≤ 'Z' ↔ 65 ≤ c.toNat ∧ c.toNat ≤ 90 := val_between_iff 'A' 'Z'
  have hlower : 'a' ≤ c ∧ c ≤ 'z' ↔ 97 ≤ c.toNat ∧ c.toNat ≤ 122 := val_between_iff 'a' 'z'
  rw [IsLetter, isWordStart_iff, hupper, hlower, ← Char.toNat_inj]
  rfl

theorem isDecimal_iff : IsDecimal c ↔ c.isDigit := by
  rw [isDigit_iff]
  exact val_between_iff '0' '9'

theorem isLetter_or_isDecimal_iff : IsLetter c ∨ IsDecimal c ↔ isWordPart c := by
  rw [isLetter_iff, isDecimal_iff, isWordPart_iff]

theorem ofMark?_eq_some_iff {lexeme : Lexeme} :
    Lexeme.ofMark? c = some lexeme ↔ (c, lexeme) ∈ punctuation := by
  constructor
  · intro h
    have hmarks : marks.all fun c => (Lexeme.ofMark? c).all fun lexeme =>
        (c, lexeme) ∈ punctuation := by decide
    have hc := List.all_eq_true.mp hmarks c (Lexeme.ofMark?_cases h).1
    rw [h] at hc
    exact of_decide_eq_true hc
  · intro h
    have hentries : punctuation.all fun entry => Lexeme.ofMark? entry.1 = some entry.2 := by decide
    exact of_decide_eq_true (List.all_eq_true.mp hentries _ h)

theorem byteLength_of_mem_punctuation {lexeme : Lexeme} (h : (c, lexeme) ∈ punctuation) :
    Text.byteLength [c] = 1 := by
  have hentries : punctuation.all fun entry => Text.byteLength [entry.1] = 1 := by decide
  exact of_decide_eq_true (List.all_eq_true.mp hentries _ h)

end

/-- A lexeme as it is written. A number may have zeros before its first digit. -/
inductive Spelling where
  | word (first : Char) (more : List Char) (hfirst : IsLetter first)
      (hmore : ∀ c ∈ more, IsLetter c ∨ IsDecimal c)
  | number (zeros value : Nat) (hvalue : value < UInt64.size)
  | mark (c : Char) (lexeme : Lexeme) (hmark : (c, lexeme) ∈ punctuation)

namespace Spelling

def lexeme : Spelling → Lexeme
  | word first more _ _ => .word (String.ofList (first :: more))
  | number _ value _ => .number value
  | mark _ lexeme _ => lexeme

def text : Spelling → List Char
  | word first more _ _ => first :: more
  | number zeros value _ => List.replicate zeros '0' ++ Nat.toDigits 10 value
  | mark c _ _ => [c]

/-- Spellings that cannot touch: nothing would show where the first one ends. After a number, a word
can. -/
def Merges : Spelling → Spelling → Prop
  | word .., word .. | word .., number .. | number .., number .. => True
  | _, _ => False

def Continues (c : Char) : Spelling → Prop
  | word .. => isWordPart c
  | number .. => c.isDigit
  | mark .. => False

theorem isDigit_of_mem_number {zeros value : Nat} {c : Char}
    (h : c ∈ List.replicate zeros '0' ++ Nat.toDigits 10 value) : c.isDigit := by
  obtain h | h := List.mem_append.mp h
  · obtain rfl := List.eq_of_mem_replicate h
    rfl
  · exact Nat.isDigit_of_mem_toDigits (by decide) (by decide) h

theorem text_ne_nil (spelling : Spelling) : spelling.text ≠ [] := by
  cases spelling with
  | word => exact List.cons_ne_nil _ _
  | number => exact List.append_ne_nil_of_right_ne_nil _ Nat.toDigits_ne_nil
  | mark => exact List.cons_ne_nil _ _

/-- Spellings merge exactly if the second one starts with a character that continues the first. -/
theorem continues_iff_merges {first second : Spelling} {c : Char}
    (hc : second.text.head? = some c) : first.Continues c ↔ first.Merges second := by
  cases second with
  | word letter more hletter _ =>
    obtain rfl : letter = c := Option.some.inj hc
    have hstart := isLetter_iff.mp hletter
    cases first with
    | word => exact iff_of_true (isWordPart_iff.mpr (.inl hstart)) trivial
    | number => exact iff_of_false (not_of_isWordStart hstart).2.2 id
    | mark => exact Iff.rfl
  | number zeros value _ =>
    have hdigit : c.isDigit := isDigit_of_mem_number (List.mem_of_mem_head? hc)
    cases first with
    | word => exact iff_of_true (isWordPart_iff.mpr (.inr hdigit)) trivial
    | number => exact iff_of_true hdigit trivial
    | mark => exact Iff.rfl
  | mark d lexeme hmark =>
    obtain rfl : d = c := Option.some.inj hc
    obtain ⟨_, _, hdigit, hstart⟩ :=
      not_of_mem_marks (Lexeme.ofMark?_cases (ofMark?_eq_some_iff.mpr hmark)).1
    cases first with
    | word => exact iff_of_false (fun h => (isWordPart_iff.mp h).elim hstart hdigit) id
    | number => exact iff_of_false hdigit id
    | mark => exact Iff.rfl

theorem not_continues_of_mem (spelling : Spelling) {c : Char} (h : c ∈ [' ', '\t', '\r', ';']) :
    ¬ spelling.Continues c := by
  have hall : [' ', '\t', '\r', ';'].all fun c => ¬ isWordPart c ∧ ¬ c.isDigit := by decide
  obtain ⟨hpart, hdigit⟩ := of_decide_eq_true (List.all_eq_true.mp hall c h)
  cases spelling with
  | word => exact hpart
  | number => exact hdigit
  | mark => exact id

theorem scan_append (spelling : Spelling) {rest : List Char}
    (hrest : ∀ c ∈ rest.head?, ¬ spelling.Continues c) (column : Nat) :
    scan column (spelling.text ++ rest) =
      (scan (column + Text.byteLength spelling.text) rest).map
        (⟨spelling.lexeme, column⟩ :: ·) := by
  cases spelling with
  | word first more hfirst hmore =>
    have hword : isWord (first :: more) := by
      refine Bool.and_eq_true_iff.mpr ⟨isLetter_iff.mp hfirst, List.all_eq_true.mpr ?_⟩
      exact fun c hc => isLetter_or_isDecimal_iff.mp (hmore c hc)
    exact scan_word hword (fun c hc => Bool.eq_false_iff.mpr (hrest c hc)) column
  | number zeros value hvalue =>
    have hnumeral : Text.numeral (List.replicate zeros '0' ++ Nat.toDigits 10 value) = value := by
      rw [Text.numeral_zeros_append]
      exact Nat.ofDigitChars_ten_toDigits
    have hbound : Text.numeral (List.replicate zeros '0' ++ Nat.toDigits 10 value) <
        literalBound := by
      rw [hnumeral]
      exact hvalue
    have hscan := scan_number (text_ne_nil (number zeros value hvalue))
      (fun c => isDigit_of_mem_number) hbound
      (fun c hc => Bool.eq_false_iff.mpr (hrest c hc)) column
    rw [text, hnumeral] at hscan
    exact hscan
  | mark c lexeme hmark =>
    rw [text, byteLength_of_mem_punctuation hmark]
    exact scan_mark (ofMark?_eq_some_iff.mpr hmark) column rest

end Spelling

def IsGap (text : List Char) : Prop := ∀ c ∈ text, c ∈ [' ', '\t', '\r']

theorem isSeparator_iff_mem {c : Char} : isSeparator c ↔ c ∈ [' ', '\t', '\r'] := by
  simp only [isSeparator, Bool.or_eq_true, beq_iff_eq, or_assoc, List.mem_cons,
    List.not_mem_nil, or_false]

theorem isGap_nil : IsGap [] := List.forall_mem_nil _

theorem isGap_cons {c : Char} {text : List Char} :
    IsGap (c :: text) ↔ c ∈ [' ', '\t', '\r'] ∧ IsGap text := List.forall_mem_cons

structure Piece where
  gap : List Char
  spelling : Spelling
  isGap : IsGap gap

namespace Piece

def text (piece : Piece) : List Char := piece.gap ++ piece.spelling.text

def indent (piece : Piece) {c : Char} (h : c ∈ [' ', '\t', '\r']) : Piece :=
  ⟨c :: piece.gap, piece.spelling, isGap_cons.mpr ⟨h, piece.isGap⟩⟩

/-- Spellings that would merge have a gap between them. -/
def Apart (first second : Piece) : Prop :=
  first.spelling.Merges second.spelling → second.gap ≠ []

end Piece

def commentText : Option (List Char) → List Char
  | none => []
  | some remark => ';' :: remark

/-- A line as it is written: pieces, blanks at the end and perhaps a comment. -/
structure Layout where
  pieces : List Piece
  trail : List Char
  comment : Option (List Char)
  isGap_trail : IsGap trail
  apart : pieces.IsChain Piece.Apart

namespace Layout

def text (layout : Layout) : List Char :=
  layout.pieces.flatMap Piece.text ++ layout.trail ++ commentText layout.comment

/-- The lexemes with their columns, if the line starts at column `start`: all bytes of the pieces
before a spelling and of the blanks just before it are counted. -/
def tokens (layout : Layout) (start : Nat) : List Token :=
  layout.pieces.mapIdx fun i piece =>
    ⟨piece.spelling.lexeme,
      start + Text.byteLength ((layout.pieces.take i).flatMap Piece.text ++ piece.gap)⟩

def bare (trail : List Char) (comment : Option (List Char)) (h : IsGap trail) : Layout :=
  ⟨[], trail, comment, h, List.isChain_nil⟩

def cons (piece : Piece) (layout : Layout)
    (h : ∀ second ∈ layout.pieces.head?, piece.Apart second) : Layout :=
  { layout with
    pieces := piece :: layout.pieces
    apart := List.isChain_cons.mpr ⟨h, layout.apart⟩ }

@[induction_eliminator]
theorem induct {motive : Layout → Prop}
    (bare : ∀ trail comment h, motive (bare trail comment h))
    (cons : ∀ piece layout h, motive layout → motive (cons piece layout h)) (layout : Layout) :
    motive layout := by
  obtain ⟨pieces, trail, comment, htrail, happart⟩ := layout
  induction pieces with
  | nil => exact bare trail comment htrail
  | cons piece pieces ih =>
    obtain ⟨hfirst, hmore⟩ := List.isChain_cons.mp happart
    exact cons piece ⟨pieces, trail, comment, htrail, hmore⟩ hfirst (ih hmore)

variable {piece : Piece} {layout : Layout}

theorem text_bare (trail : List Char) (comment : Option (List Char)) (h : IsGap trail) :
    (bare trail comment h).text = trail ++ commentText comment := rfl

theorem text_cons (h : ∀ second ∈ layout.pieces.head?, piece.Apart second) :
    (cons piece layout h).text = piece.text ++ layout.text := by
  rw [text, text, cons, List.flatMap_cons, List.append_assoc, List.append_assoc, List.append_assoc]

theorem tokens_cons (h : ∀ second ∈ layout.pieces.head?, piece.Apart second) (start : Nat) :
    (cons piece layout h).tokens start =
      ⟨piece.spelling.lexeme, start + Text.byteLength piece.gap⟩ ::
        layout.tokens (start + Text.byteLength piece.text) := by
  simp only [tokens, cons, List.mapIdx_cons, List.take_zero, List.flatMap_nil, List.nil_append,
    List.take_succ_cons, List.flatMap_cons, List.append_assoc, Text.byteLength_append piece.text,
    Nat.add_assoc]

theorem mem_of_head?_bare {trail : List Char} {comment : Option (List Char)} (h : IsGap trail)
    {c : Char} (hc : c ∈ (bare trail comment h).text.head?) : c ∈ [' ', '\t', '\r', ';'] := by
  cases trail with
  | cons blank trail =>
    obtain rfl : blank = c := Option.some.inj hc
    exact List.mem_append_left [';'] (h blank List.mem_cons_self)
  | nil =>
    cases comment with
    | none => cases hc
    | some remark =>
      obtain rfl : ';' = c := Option.some.inj hc
      decide

theorem not_continues_iff (piece : Piece) (layout : Layout) :
    (∀ c ∈ layout.text.head?, ¬ piece.spelling.Continues c) ↔
      ∀ second ∈ layout.pieces.head?, piece.Apart second := by
  induction layout with
  | bare trail comment h =>
    refine iff_of_true (fun c hc => ?_) (fun _ hsecond => by cases hsecond)
    exact piece.spelling.not_continues_of_mem (mem_of_head?_bare h hc)
  | cons second layout h _ =>
    have hfirst : (cons second layout h).pieces.head? = some second := rfl
    simp only [hfirst, Option.mem_some_iff, forall_eq', text_cons, Piece.text, List.append_assoc,
      Piece.Apart]
    -- The layout starts with the second spelling itself or with a blank before it.
    obtain hgap | hgap := eq_or_ne second.gap []
    · obtain ⟨c, hc⟩ := Option.ne_none_iff_exists'.mp
        (mt List.head?_eq_none_iff.mp second.spelling.text_ne_nil)
      rw [hgap, List.nil_append, List.head?_append_of_ne_nil _ second.spelling.text_ne_nil, hc]
      simp only [Option.mem_some_iff, forall_eq', Spelling.continues_iff_merges hc, ne_eq,
        not_true_eq_false, imp_false]
    · refine iff_of_true ?_ fun _ => hgap
      rw [List.head?_append_of_ne_nil _ hgap]
      intro c hc
      apply piece.spelling.not_continues_of_mem
      exact List.mem_append_left [';'] (second.isGap c (List.mem_of_mem_head? hc))

end Layout

theorem byteLength_cons_of_mem {c : Char} (h : c ∈ [' ', '\t', '\r']) (text : List Char) :
    Text.byteLength (c :: text) = 1 + Text.byteLength text := by
  have hsizes : [' ', '\t', '\r'].all fun c => c.utf8Size = 1 := by decide
  have hsize := of_decide_eq_true (List.all_eq_true.mp hsizes c h)
  change c.utf8Size + Text.byteLength text = _
  rw [hsize]

theorem scan_gap {gap : List Char} (h : IsGap gap) (column : Nat) (rest : List Char) :
    scan column (gap ++ rest) = scan (column + Text.byteLength gap) rest := by
  induction gap generalizing column with
  | nil => rfl
  | cons blank gap ih =>
    obtain ⟨hblank, hgap⟩ := isGap_cons.mp h
    rw [List.cons_append, scan_separator (isSeparator_iff_mem.mpr hblank), ih hgap,
      byteLength_cons_of_mem hblank, Nat.add_assoc]

theorem scan_commentText (column : Nat) (comment : Option (List Char)) :
    scan column (commentText comment) = .ok [] := by
  cases comment with
  | none => rw [commentText, scan]
  | some remark => rw [commentText, scan, if_pos rfl]

/-- The scanner finds the lexemes of a layout where they start. -/
theorem scan_layout (layout : Layout) (start : Nat) :
    scan start layout.text = .ok (layout.tokens start) := by
  induction layout generalizing start with
  | bare trail comment h =>
    rw [Layout.text_bare, scan_gap h]
    exact scan_commentText _ comment
  | cons piece layout h ih =>
    have hedge := (layout.not_continues_iff piece).mpr h
    rw [Layout.text_cons, Piece.text, List.append_assoc, scan_gap piece.isGap,
      piece.spelling.scan_append hedge, Nat.add_assoc, ← Text.byteLength_append, ih,
      Layout.tokens_cons]
    rfl

/-- A text that starts at `column` is laid out from the lexemes of these tokens. -/
def Renders (column : Nat) (text : List Char) (tokens : List Token) : Prop :=
  ∃ layout : Layout, layout.text = text ∧ layout.tokens column = tokens

namespace Renders

variable {column : Nat} {rest : List Char} {tokens : List Token}

theorem comment (comment : Option (List Char)) : Renders column (commentText comment) [] :=
  ⟨.bare [] comment isGap_nil, rfl, rfl⟩

theorem blank {c : Char} (hc : c ∈ [' ', '\t', '\r']) (h : Renders (column + 1) rest tokens) :
    Renders column (c :: rest) tokens := by
  obtain ⟨layout, rfl, rfl⟩ := h
  induction layout with
  | bare trail comment h => exact ⟨.bare (c :: trail) comment (isGap_cons.mpr ⟨hc, h⟩), rfl, rfl⟩
  | cons piece layout h _ =>
    have hindent : ∀ second ∈ layout.pieces.head?, (piece.indent hc).Apart second := h
    have htext : (piece.indent hc).text = c :: piece.text := rfl
    have hgap : (piece.indent hc).gap = c :: piece.gap := rfl
    refine ⟨.cons (piece.indent hc) layout hindent, ?_, ?_⟩
    · rw [Layout.text_cons, Layout.text_cons, htext, List.cons_append]
    · rw [Layout.tokens_cons, Layout.tokens_cons, htext, hgap, byteLength_cons_of_mem hc,
        byteLength_cons_of_mem hc, Nat.add_assoc, Nat.add_assoc]
      rfl

theorem spelling (spelling : Spelling) (hedge : ∀ c ∈ rest.head?, ¬ spelling.Continues c)
    (h : Renders (column + Text.byteLength spelling.text) rest tokens) :
    Renders column (spelling.text ++ rest) (⟨spelling.lexeme, column⟩ :: tokens) := by
  obtain ⟨layout, rfl, rfl⟩ := h
  have hapart := (layout.not_continues_iff ⟨[], spelling, isGap_nil⟩).mp hedge
  refine ⟨.cons ⟨[], spelling, isGap_nil⟩ layout hapart, ?_, ?_⟩
  · rw [Layout.text_cons]
    rfl
  · rw [Layout.tokens_cons]
    rfl

theorem number {digits : List Char} (hne : digits ≠ []) (hdigits : ∀ c ∈ digits, c.isDigit)
    (hbound : Text.numeral digits < literalBound) (hrest : ∀ c ∈ rest.head?, c.isDigit = false)
    (h : Renders (column + Text.byteLength digits) rest tokens) :
    Renders column (digits ++ rest) (⟨.number (Text.numeral digits), column⟩ :: tokens) := by
  obtain ⟨zeros, hzeros⟩ := Text.exists_zeros_append_toDigits hne hdigits
  have htext : (Spelling.number zeros (Text.numeral digits) hbound).text = digits := hzeros
  rw [← htext] at h
  have hrendered := spelling (.number zeros _ hbound)
    (fun c hc => Bool.eq_false_iff.mp (hrest c hc)) h
  rw [htext] at hrendered
  exact hrendered

theorem word {first : Char} {more : List Char} (hfirst : isWordStart first)
    (hmore : ∀ c ∈ more, isWordPart c) (hrest : ∀ c ∈ rest.head?, isWordPart c = false)
    (h : Renders (column + Text.byteLength (first :: more)) rest tokens) :
    Renders column (first :: more ++ rest)
      (⟨.word (String.ofList (first :: more)), column⟩ :: tokens) :=
  spelling (.word first more (isLetter_iff.mpr hfirst) fun c hc =>
    isLetter_or_isDecimal_iff.mpr (hmore c hc)) (fun c hc => Bool.eq_false_iff.mp (hrest c hc)) h

theorem mark {c : Char} {lexeme : Lexeme} (hmark : Lexeme.ofMark? c = some lexeme)
    (h : Renders (column + 1) rest tokens) :
    Renders column (c :: rest) (⟨lexeme, column⟩ :: tokens) := by
  have hentry := ofMark?_eq_some_iff.mp hmark
  rw [← byteLength_of_mem_punctuation hentry] at h
  exact spelling (.mark c lexeme hentry) (fun _ _ => id) h

end Renders

/-- A text in which tokens are found is laid out from their lexemes. -/
theorem renders_of_scan {column : Nat} {text : List Char} {tokens : List Token}
    (h : scan column text = .ok tokens) : Renders column text tokens := by
  -- Each step of the scanner puts a blank or a spelling before the layout of the rest.
  fun_induction scan column text generalizing tokens with
  | case1 column =>
    cases h
    exact .comment none
  | case2 column cs =>
    cases h
    exact .comment (some cs)
  | case3 column c cs _ hseparator ih => exact (ih h).blank (isSeparator_iff_mem.mp hseparator)
  | case4 column c cs _ _ hdigit digits hbound =>
    rename_i ih
    obtain ⟨more, hmore, rfl⟩ := map_eq_ok_iff.mp h
    have hdigits : ∀ d ∈ digits, d.isDigit :=
      List.forall_mem_cons.mpr ⟨hdigit, List.all_eq_true.mp List.all_takeWhile⟩
    have hrendered := Renders.number (List.cons_ne_nil _ _) hdigits hbound
      (fun _ => Text.not_of_head?_dropWhile) (ih hmore)
    rwa [List.cons_append, List.takeWhile_append_dropWhile] at hrendered
  | case6 column c cs _ _ _ hstart letters =>
    rename_i ih
    obtain ⟨more, hmore, rfl⟩ := map_eq_ok_iff.mp h
    have hrendered := Renders.word hstart (List.all_eq_true.mp List.all_takeWhile)
      (fun _ => Text.not_of_head?_dropWhile) (ih hmore)
    rwa [List.cons_append, List.takeWhile_append_dropWhile] at hrendered
  | case7 column c cs _ _ _ _ lexeme hmark ih =>
    obtain ⟨more, hmore, rfl⟩ := map_eq_ok_iff.mp h
    exact (ih hmore).mark hmark
  | case5 | case8 => cases h

/-- Tokens are found in a text exactly if the text is a layout of their lexemes. The spellings, the
blanks that keep them apart and the comment are free, and columns are byte positions from 1 on. -/
theorem scan_eq_ok_iff_layout (text : List Char) (tokens : List Token) :
    scan 1 text = .ok tokens ↔
      ∃ layout : Layout, layout.text = text ∧ layout.tokens 1 = tokens := by
  constructor
  · exact renders_of_scan
  · rintro ⟨layout, rfl, rfl⟩
    exact scan_layout layout 1

example :
    scan 1 "12ab\t07;é".toList = .ok [⟨.number 12, 1⟩, ⟨.word "ab", 3⟩, ⟨.number 7, 6⟩] := by
  decide +kernel

end Source

end CoreWar
