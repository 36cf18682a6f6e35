import CoreWar.Proofs.Phrases

namespace CoreWar.Source

def isWord : List Char → Bool
  | [] => false
  | c :: cs => isWordStart c && cs.all isWordPart

def marks : List Char :=
  Mode.all.map Mode.sigil ++ Operator.all.map Operator.symbol ++ ['(', ')', ',', '.', ':']

section

variable {c : Char}

theorem val_between_iff (low high : Char) :
    c.val ≥ low.val ∧ c.val ≤ high.val ↔ low.toNat ≤ c.toNat ∧ c.toNat ≤ high.toNat := by
  rw [ge_iff_le, UInt32.le_iff_toNat_le, UInt32.le_iff_toNat_le]
  rfl

theorem isDigit_iff : c.isDigit = true ↔ 48 ≤ c.toNat ∧ c.toNat ≤ 57 := by
  change (decide (c.val ≥ '0'.val) && decide (c.val ≤ '9'.val)) = true ↔ _
  rw [Bool.and_eq_true, decide_eq_true_eq, decide_eq_true_eq, val_between_iff]
  rfl

theorem isWordStart_iff :
    isWordStart c = true ↔
      65 ≤ c.toNat ∧ c.toNat ≤ 90 ∨ 97 ≤ c.toNat ∧ c.toNat ≤ 122 ∨ c.toNat = 95 := by
  change (decide (c.val ≥ 'A'.val ∧ c.val ≤ 'Z'.val) ||
    (decide (c.val ≥ 'a'.val) && decide (c.val ≤ 'z'.val)) || c == '_') = true ↔ _
  rw [Bool.or_eq_true, Bool.or_eq_true, Bool.and_eq_true, decide_eq_true_eq, decide_eq_true_eq,
    decide_eq_true_eq, val_between_iff, val_between_iff, beq_iff_eq, ← Char.toNat_inj, or_assoc]
  rfl

theorem isWordPart_iff : isWordPart c = true ↔ isWordStart c = true ∨ c.isDigit = true := by
  simp only [isWordPart, isWordStart, Char.isAlphanum, Bool.or_eq_true, or_right_comm]

theorem isSeparator_iff :
    isSeparator c = true ↔ c.toNat = 32 ∨ c.toNat = 9 ∨ c.toNat = 13 := by
  simp only [isSeparator, Bool.or_eq_true, beq_iff_eq, or_assoc, ← Char.toNat_inj]
  rfl

theorem eq_semicolon_iff : c = ';' ↔ c.toNat = 59 := by
  rw [← Char.toNat_inj]
  rfl

theorem toNat_toLower :
    c.toLower.toNat = if 65 ≤ c.toNat ∧ c.toNat ≤ 90 then c.toNat + 32 else c.toNat := by
  have hupper : c.val ≥ 'A'.val ∧ c.val ≤ 'Z'.val ↔ 65 ≤ c.toNat ∧ c.toNat ≤ 90 :=
    val_between_iff 'A' 'Z'
  unfold Char.toLower
  by_cases h : 65 ≤ c.toNat ∧ c.toNat ≤ 90
  · rw [dif_pos (hupper.mpr h), if_pos h]
    have hsum : (c.val + ('a'.val - 'A'.val)).toNat = (c.toNat + 32) % 2 ^ 32 :=
      UInt32.toNat_add c.val 32
    exact hsum.trans (Nat.mod_eq_of_lt (by omega))
  · rw [dif_neg (mt hupper.mp h), if_neg h]

theorem isWordStart_toLower : isWordStart c.toLower = isWordStart c := by
  rw [Bool.eq_iff_iff, isWordStart_iff, isWordStart_iff, toNat_toLower]
  split <;> omega

theorem isWordPart_toLower : isWordPart c.toLower = isWordPart c := by
  rw [Bool.eq_iff_iff, isWordPart_iff, isWordPart_iff, isWordStart_toLower, isDigit_iff,
    isDigit_iff, toNat_toLower]
  split
  · next h => simp [isWordStart_iff.mpr (.inl h)]
  · rfl

theorem ne_semicolon_of_isSeparator (h : isSeparator c) : c ≠ ';' := by
  rw [isSeparator_iff] at h
  rw [ne_eq, eq_semicolon_iff]
  omega

theorem not_of_isDigit (h : c.isDigit) : c ≠ ';' ∧ ¬ isSeparator c := by
  rw [isDigit_iff] at h
  rw [ne_eq, eq_semicolon_iff, isSeparator_iff]
  omega

theorem not_of_isWordStart (h : isWordStart c) : c ≠ ';' ∧ ¬ isSeparator c ∧ ¬ c.isDigit := by
  rw [isWordStart_iff] at h
  rw [ne_eq, eq_semicolon_iff, isSeparator_iff, isDigit_iff]
  omega

theorem not_of_mem_marks (h : c ∈ marks) :
    c ≠ ';' ∧ ¬ isSeparator c ∧ ¬ c.isDigit ∧ ¬ isWordStart c := by
  have hmarks : marks.all fun c =>
      c ≠ ';' ∧ ¬ isSeparator c ∧ ¬ c.isDigit ∧ ¬ isWordStart c := by decide
  exact of_decide_eq_true (List.all_eq_true.mp hmarks c h)

theorem toNat_of_isWordStart (h : isWordStart c) : 65 ≤ c.toNat ∧ c.toNat ≤ 122 := by
  rw [isWordStart_iff] at h
  omega

theorem toNat_of_mem_marks (h : c ∈ marks) : 33 ≤ c.toNat ∧ c.toNat ≤ 126 := by
  have hmarks : marks.all fun c => 33 ≤ c.toNat ∧ c.toNat ≤ 126 := by decide
  exact of_decide_eq_true (List.all_eq_true.mp hmarks c h)

theorem toNat_of_isBlank (h : Text.isBlank c) : c.toNat ≤ 32 ∨ 133 ≤ c.toNat := by
  have hranges : Text.blankRanges.all (fun range => range.2 ≤ 32 || 133 ≤ range.1) := by decide
  obtain ⟨range, hm, hc⟩ := List.any_eq_true.mp h
  have hrange := List.all_eq_true.mp hranges range hm
  simp only [Bool.and_eq_true, Bool.or_eq_true, decide_eq_true_eq] at hc hrange
  omega

theorem ne_semicolon_of_isBlank (h : Text.isBlank c) : c ≠ ';' := by
  have hspace := toNat_of_isBlank h
  rw [ne_eq, eq_semicolon_iff]
  omega

theorem not_isBlank_of_isWordStart (h : isWordStart c) : Text.isBlank c = false := by
  rw [Bool.eq_false_iff]
  intro hblank
  have hword := toNat_of_isWordStart h
  have hspace := toNat_of_isBlank hblank
  omega

theorem Lexeme.ofMark?_cases {lexeme : Lexeme} (h : ofMark? c = some lexeme) :
    c ∈ marks ∧ ∀ name, lexeme ≠ word name := by
  unfold ofMark? at h
  split at h
  · next mode hmode =>
    cases h
    have hsigil := List.find?_some hmode
    obtain rfl := beq_iff_eq.mp hsigil
    exact ⟨by cases mode <;> decide, nofun⟩
  · next op _ hop =>
    cases h
    have hsymbol := List.find?_some hop
    obtain rfl := beq_iff_eq.mp hsymbol
    exact ⟨by cases op <;> decide, nofun⟩
  · split at h <;> cases h <;> exact ⟨by decide, nofun⟩

theorem Lexeme.ofMark?_sigil (mode : Mode) : ofMark? mode.sigil = some (sigil mode) := by
  cases mode <;> rfl

theorem Lexeme.ofMark?_symbol (op : Operator) : ofMark? op.symbol = some (operator op) := by
  cases op <;> rfl

theorem span_append {p : Char → Bool} {cs rest : List Char} (h : ∀ c ∈ cs, p c)
    (hrest : ∀ c ∈ rest.head?, p c = false) :
    (cs ++ rest).takeWhile p = cs ∧ (cs ++ rest).dropWhile p = rest := by
  rw [List.takeWhile_append_of_pos h, List.dropWhile_append_of_pos h]
  cases rest with
  | nil => exact ⟨List.append_nil cs, rfl⟩
  | cons c rest =>
    have hc : p c = false := hrest c rfl
    rw [List.takeWhile_cons, List.dropWhile_cons, hc]
    exact ⟨List.append_nil cs, rfl⟩

theorem scan_separator (h : isSeparator c) (column : Nat) (cs : List Char) :
    scan column (c :: cs) = scan (column + 1) cs := by
  rw [scan, if_neg (ne_semicolon_of_isSeparator h), if_pos h]

theorem scan_word {letters rest : List Char} (h : isWord letters)
    (hrest : ∀ c ∈ rest.head?, isWordPart c = false) (column : Nat) :
    scan column (letters ++ rest) =
      (scan (column + Text.byteLength letters) rest).map
        (⟨.word (String.ofList letters), column⟩ :: ·) := by
  cases letters with
  | nil => cases h
  | cons c cs =>
    obtain ⟨hc, hcs⟩ := Bool.and_eq_true_iff.mp h
    obtain ⟨htake, hdrop⟩ := span_append (List.all_eq_true.mp hcs) hrest
    obtain ⟨hsemicolon, hseparator, hdigit⟩ := not_of_isWordStart hc
    rw [List.cons_append, scan, if_neg hsemicolon, if_neg hseparator, if_neg hdigit, if_pos hc,
      htake, hdrop]

theorem scan_number {digits rest : List Char} (hne : digits ≠ []) (h : ∀ c ∈ digits, c.isDigit)
    (hbound : Text.numeral digits < literalBound)
    (hrest : ∀ c ∈ rest.head?, c.isDigit = false) (column : Nat) :
    scan column (digits ++ rest) =
      (scan (column + Text.byteLength digits) rest).map
        (⟨.number (Text.numeral digits), column⟩ :: ·) := by
  cases digits with
  | nil => exact absurd rfl hne
  | cons c cs =>
    obtain ⟨hc, hcs⟩ := List.forall_mem_cons.mp h
    obtain ⟨htake, hdrop⟩ := span_append hcs hrest
    obtain ⟨hsemicolon, hseparator⟩ := not_of_isDigit hc
    rw [List.cons_append, scan, if_neg hsemicolon, if_neg hseparator, if_pos hc, htake, hdrop,
      if_pos hbound]

theorem scan_mark {lexeme : Lexeme} (h : Lexeme.ofMark? c = some lexeme) (column : Nat)
    (rest : List Char) :
    scan column (c :: rest) = (scan (column + 1) rest).map (⟨lexeme, column⟩ :: ·) := by
  obtain ⟨hsemicolon, hseparator, hdigit, hword⟩ :=
    not_of_mem_marks (Lexeme.ofMark?_cases h).1
  rw [scan, if_neg hsemicolon, if_neg hseparator, if_neg hdigit, if_neg hword, h]

theorem isWord_map_toLower (letters : List Char) :
    isWord (letters.map Char.toLower) = isWord letters := by
  cases letters with
  | nil => rfl
  | cons c cs =>
    simp only [List.map_cons, isWord, isWordStart_toLower, List.all_map, Function.comp_def,
      isWordPart_toLower]

theorem isWord_of_sameName {s t : String} (h : Text.sameName s t) (ht : isWord t.toList) :
    isWord s.toList := by
  have hlower : s.toList.map Char.toLower = t.toList.map Char.toLower := beq_iff_eq.mp h
  rw [← isWord_map_toLower, hlower, isWord_map_toLower]
  exact ht

theorem isWord_of_mem_scan {column : Nat} {text : List Char} {tokens : List Token} {name : String}
    (h : scan column text = .ok tokens) (hm : .word name ∈ lexemes tokens) :
    isWord name.toList := by
  fun_induction scan column text generalizing tokens with
  | case1 | case2 =>
    cases h
    cases hm
  | case3 column c cs _ _ ih => exact ih h hm
  | case4 column c cs _ _ hdigit digits hbound =>
    rename_i ih
    obtain ⟨more, hmore, rfl⟩ := map_eq_ok_iff.mp h
    obtain he | hm := List.mem_cons.mp hm
    · cases he
    · exact ih hmore hm
  | case6 column c cs _ _ _ hstart letters =>
    rename_i ih
    obtain ⟨more, hmore, rfl⟩ := map_eq_ok_iff.mp h
    obtain he | hm := List.mem_cons.mp hm
    · cases he
      rw [String.toList_ofList]
      exact Bool.and_eq_true_iff.mpr ⟨hstart, List.all_takeWhile⟩
    · exact ih hmore hm
  | case7 column c cs _ _ _ _ lexeme hmark ih =>
    obtain ⟨more, hmore, rfl⟩ := map_eq_ok_iff.mp h
    obtain he | hm := List.mem_cons.mp hm
    · exact absurd he.symm ((Lexeme.ofMark?_cases hmark).2 name)
    · exact ih hmore hm
  | case5 | case8 => cases h

end

/-- A text has these lexemes, wherever it starts. -/
def Scans (text : List Char) (found : List Lexeme) : Prop :=
  ∀ column, ∃ tokens, scan column text = .ok tokens ∧ lexemes tokens = found

/-- A word or number before this text ends there. -/
def AtEdge (rest : List Char) : Prop := ∀ c ∈ rest.head?, isWordPart c = false

theorem atEdge_nil : AtEdge [] := nofun

theorem atEdge_cons {c : Char} (h : isWordPart c = false) (rest : List Char) :
    AtEdge (c :: rest) := by
  rintro _ ⟨⟩
  exact h

namespace Scans

variable {rest : List Char} {found : List Lexeme}

theorem nil : Scans [] [] := fun column => ⟨[], by rw [scan], rfl⟩

theorem separator {c : Char} (h : isSeparator c) (hrest : Scans rest found) :
    Scans (c :: rest) found := by
  intro column
  rw [scan_separator h]
  exact hrest (column + 1)

theorem separators {blanks : List Char} (h : ∀ c ∈ blanks, isSeparator c)
    (hrest : Scans rest found) : Scans (blanks ++ rest) found := by
  induction blanks with
  | nil => exact hrest
  | cons c blanks ih =>
    obtain ⟨hc, hblanks⟩ := List.forall_mem_cons.mp h
    exact separator hc (ih hblanks)

theorem of_scan_eq {text : List Char} {lexeme : Lexeme} {width : Nat}
    (h : ∀ column, scan column text =
      (scan (column + width) rest).map (⟨lexeme, column⟩ :: ·)) (hrest : Scans rest found) :
    Scans text (lexeme :: found) := by
  intro column
  obtain ⟨tokens, htokens, rfl⟩ := hrest (column + width)
  refine ⟨⟨lexeme, column⟩ :: tokens, ?_, rfl⟩
  rw [h, htokens]
  rfl

theorem mark {c : Char} {lexeme : Lexeme} (h : Lexeme.ofMark? c = some lexeme)
    (hrest : Scans rest found) : Scans (c :: rest) (lexeme :: found) :=
  of_scan_eq (fun column => scan_mark h column rest) hrest

theorem word {name : String} (h : isWord name.toList) (hedge : AtEdge rest)
    (hrest : Scans rest found) :
    Scans (name.toList ++ rest) (.word name :: found) := by
  have hscan := scan_word h hedge
  rw [String.ofList_toList] at hscan
  exact of_scan_eq hscan hrest

theorem number {value : Nat} (h : value < literalBound) (hedge : AtEdge rest)
    (hrest : Scans rest found) :
    Scans ((toString value).toList ++ rest) (.number value :: found) := by
  have hdigits : ∀ c ∈ Nat.toDigits 10 value, c.isDigit :=
    fun c hc => Nat.isDigit_of_mem_toDigits (by decide) (by decide) hc
  have hvalue : Text.numeral (Nat.toDigits 10 value) = value :=
    Nat.ofDigitChars_toDigits (by decide) (by decide)
  have hstops : ∀ c ∈ rest.head?, c.isDigit = false := by
    intro c hc
    have hpart := hedge c hc
    rw [← Bool.not_eq_true, isWordPart_iff, not_or] at hpart
    exact Bool.eq_false_iff.mpr hpart.2
  have hscan := scan_number Nat.toDigits_ne_nil hdigits (hvalue.symm ▸ h) hstops
  rw [hvalue] at hscan
  rw [Nat.toString_eq_ofList_toDigits, String.toList_ofList]
  exact of_scan_eq hscan hrest

end Scans

end CoreWar.Source
