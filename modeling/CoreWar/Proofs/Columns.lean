import CoreWar.Proofs.Lines
import CoreWar.Proofs.Scanning
import CoreWar.Proofs.TextLines

namespace CoreWar

namespace Text

def IsAscii (text : List Char) : Prop := ∀ c ∈ text, c.toNat < 128

theorem byteLength_append (first second : List Char) :
    byteLength (first ++ second) = byteLength first + byteLength second := by
  induction first with
  | nil => exact (Nat.zero_add _).symm
  | cons c cs ih =>
    change c.utf8Size + byteLength (cs ++ second) = c.utf8Size + byteLength cs + _
    rw [ih, Nat.add_assoc]

theorem IsAscii.byteLength_eq {text : List Char} (h : IsAscii text) :
    byteLength text = text.length := by
  induction text with
  | nil => rfl
  | cons c cs ih =>
    obtain ⟨hc, hcs⟩ := List.forall_mem_cons.mp h
    have hsize : c.utf8Size = 1 := by
      rw [Char.utf8Size_eq_one_iff, UInt32.le_iff_toNat_le]
      exact Nat.le_of_lt_succ hc
    change c.utf8Size + byteLength cs = cs.length + 1
    rw [hsize, ih hcs, Nat.add_comm]

end Text

namespace Source

/-- Of a text that starts at column `start`, a place before which all is ASCII has this column. -/
def IsPlace (start : Nat) (text : List Char) (column : Nat) : Prop :=
  ∃ before after, text = before ++ after ∧ Text.IsAscii before ∧ column = start + before.length

theorem isPlace_start (start : Nat) (text : List Char) : IsPlace start text start :=
  ⟨[], text, rfl, List.forall_mem_nil _, rfl⟩

theorem IsPlace.append {start column : Nat} {used rest : List Char} (hused : Text.IsAscii used)
    (h : IsPlace (start + used.length) rest column) : IsPlace start (used ++ rest) column := by
  obtain ⟨before, after, rfl, hbefore, rfl⟩ := h
  refine ⟨used ++ before, after, (List.append_assoc ..).symm, ?_, ?_⟩
  · exact List.forall_mem_append.mpr ⟨hused, hbefore⟩
  · rw [List.length_append, Nat.add_assoc]

theorem isAscii_of_isWordPart {c : Char} (h : isWordPart c) : c.toNat < 128 ∧ c ≠ ';' := by
  rw [isWordPart_iff, isWordStart_iff, isDigit_iff] at h
  rw [ne_eq, eq_semicolon_iff]
  omega

theorem isAscii_of_isSeparator {c : Char} (h : isSeparator c) : c.toNat < 128 ∧ c ≠ ';' := by
  rw [isSeparator_iff] at h
  rw [ne_eq, eq_semicolon_iff]
  omega

theorem isAscii_of_mem_marks {c : Char} (h : c ∈ marks) : c.toNat < 128 ∧ c ≠ ';' :=
  ⟨Nat.lt_of_le_of_lt (toNat_of_mem_marks h).2 (by decide), (not_of_mem_marks h).1⟩

theorem isAscii_of_mem_run {p : Char → Bool} (hp : ∀ d, p d → isWordPart d) {c : Char}
    (hc : isWordPart c) (cs : List Char) :
    ∀ d ∈ c :: cs.takeWhile p, d.toNat < 128 ∧ d ≠ ';' := by
  intro d hd
  apply isAscii_of_isWordPart
  obtain rfl | hd := List.mem_cons.mp hd
  · exact hc
  · exact hp d (List.all_eq_true.mp List.all_takeWhile d hd)

/-- What the scanner does next: it is done, it stops here, or it goes on after some ASCII characters
that give at most a token at this column. -/
inductive ScanStep (column : Nat) (text : List Char) : Prop
  | done (htext : text.takeWhile (· != ';') = []) (h : scan column text = .ok [])
  | refuse (fault : Fault) (h : scan column text = .error ⟨column, fault⟩)
  | go (used rest : List Char) (tokens : List Token) (htext : text = used ++ rest)
      (hne : used ≠ []) (hused : ∀ c ∈ used, c.toNat < 128 ∧ c ≠ ';')
      (htokens : ∀ token ∈ tokens, token.column = column)
      (h : scan column text = (scan (column + used.length) rest).map (tokens ++ ·))

theorem scanStep (column : Nat) (text : List Char) : ScanStep column text := by
  cases text with
  | nil => exact .done rfl (by rw [scan])
  | cons c cs =>
    by_cases hsemicolon : c = ';'
    · subst hsemicolon
      exact .done rfl (by rw [scan, if_pos rfl])
    by_cases hseparator : isSeparator c
    · refine .go [c] cs [] rfl (List.cons_ne_nil _ _) ?_ (List.forall_mem_nil _) ?_
      · exact List.forall_mem_singleton.mpr (isAscii_of_isSeparator hseparator)
      · rw [scan_separator hseparator]
        cases scan (column + 1) cs <;> rfl
    by_cases hdigit : c.isDigit
    · have hpart : ∀ d : Char, d.isDigit → isWordPart d := fun d hd => isWordPart_iff.mpr (.inr hd)
      have hdigits := isAscii_of_mem_run hpart (hpart c hdigit) cs
      have hbytes := Text.IsAscii.byteLength_eq fun d hd => (hdigits d hd).1
      by_cases hbound : Text.numeral (c :: cs.takeWhile Char.isDigit) < literalBound
      · refine .go _ (cs.dropWhile Char.isDigit)
          [⟨.number (Text.numeral (c :: cs.takeWhile Char.isDigit)), column⟩] ?_
          (List.cons_ne_nil _ _) hdigits (List.forall_mem_singleton.mpr rfl) ?_
        · rw [List.cons_append, List.takeWhile_append_dropWhile]
        · rw [← hbytes, scan, if_neg hsemicolon, if_neg hseparator, if_pos hdigit]
          exact if_pos hbound
      · refine .refuse (.literalOutOfRange (String.ofList (c :: cs.takeWhile Char.isDigit))) ?_
        rw [scan, if_neg hsemicolon, if_neg hseparator, if_pos hdigit]
        exact if_neg hbound
    by_cases hword : isWordStart c
    · have hletters := isAscii_of_mem_run (fun _ => id) (isWordPart_iff.mpr (.inl hword)) cs
      have hbytes := Text.IsAscii.byteLength_eq fun d hd => (hletters d hd).1
      refine .go _ (cs.dropWhile isWordPart)
        [⟨.word (String.ofList (c :: cs.takeWhile isWordPart)), column⟩] ?_
        (List.cons_ne_nil _ _) hletters (List.forall_mem_singleton.mpr rfl) ?_
      · rw [List.cons_append, List.takeWhile_append_dropWhile]
      · rw [← hbytes, scan, if_neg hsemicolon, if_neg hseparator, if_neg hdigit, if_pos hword]
        rfl
    cases hmark : Lexeme.ofMark? c with
    | some lexeme =>
      refine .go [c] cs [⟨lexeme, column⟩] rfl (List.cons_ne_nil _ _) ?_
        (List.forall_mem_singleton.mpr rfl) (scan_mark hmark column cs)
      exact List.forall_mem_singleton.mpr (isAscii_of_mem_marks (Lexeme.ofMark?_cases hmark).1)
    | none =>
      refine .refuse (.unexpectedCharacter c) ?_
      rw [scan, if_neg hsemicolon, if_neg hseparator, if_neg hdigit, if_neg hword, hmark]

theorem length_lt_of_eq_append {text used rest : List Char} (htext : text = used ++ rest)
    (hne : used ≠ []) : rest.length < text.length := by
  have hpos := List.length_pos_iff.mpr hne
  rw [htext, List.length_append]
  omega

/-- What the scanner finds, or refuses, has a place in the text. -/
theorem isPlace_of_scan_error {column : Nat} {text : List Char} {refusal : Refusal}
    (h : scan column text = .error refusal) : IsPlace column text refusal.column := by
  cases scanStep column text with
  | done _ hscan => cases hscan.symm.trans h
  | refuse fault hscan =>
    cases hscan.symm.trans h
    exact isPlace_start column text
  | go used rest tokens htext hne hused _ hscan =>
    have hlt := length_lt_of_eq_append htext hne
    have hrest := isPlace_of_scan_error (map_eq_error_iff.mp (hscan.symm.trans h))
    rw [htext]
    exact hrest.append fun c hc => (hused c hc).1
termination_by text.length

theorem isPlace_of_scan_ok {column : Nat} {text : List Char} {tokens : List Token}
    (h : scan column text = .ok tokens) :
    (∀ token ∈ tokens, IsPlace column text token.column) ∧
      Text.IsAscii (text.takeWhile (· != ';')) := by
  cases scanStep column text with
  | done htext hscan =>
    cases hscan.symm.trans h
    rw [htext]
    exact ⟨nofun, List.forall_mem_nil _⟩
  | refuse fault hscan => cases hscan.symm.trans h
  | go used rest first htext hne hused hfirst hscan =>
    have hlt := length_lt_of_eq_append htext hne
    obtain ⟨more, hmore, rfl⟩ := map_eq_ok_iff.mp (hscan.symm.trans h)
    obtain ⟨hplaces, hascii⟩ := isPlace_of_scan_ok hmore
    have husedAscii : Text.IsAscii used := fun c hc => (hused c hc).1
    have hcode : ∀ c ∈ used, (c != ';') = true := fun c hc => bne_iff_ne.mpr (hused c hc).2
    rw [htext, List.takeWhile_append_of_pos hcode]
    refine ⟨?_, List.forall_mem_append.mpr ⟨husedAscii, hascii⟩⟩
    intro token hm
    obtain hm | hm := List.mem_append.mp hm
    · rw [hfirst token hm]
      exact isPlace_start column _
    · exact (hplaces token hm).append husedAscii
termination_by text.length

section

variable {α β : Type} {P : Nat → Prop} {stop : Nat} {tokens : List Token}

def AllAt (P : Nat → Prop) (tokens : List Token) : Prop := ∀ token ∈ tokens, P token.column

/-- A reader refuses only at columns with the property, and leaves only tokens at such columns. -/
def StaysAt (P : Nat → Prop) : Except Refusal (α × List Token) → Prop
  | .error refusal => P refusal.column
  | .ok (_, rest) => AllAt P rest

theorem AllAt.tail {token : Token} (h : AllAt P (token :: tokens)) : AllAt P tokens :=
  (List.forall_mem_cons.mp h).2

theorem AllAt.nextColumn (h : AllAt P tokens) (hstop : P stop) : P (nextColumn stop tokens) := by
  cases tokens with
  | nil => exact hstop
  | cons token more => exact h token List.mem_cons_self

theorem StaysAt.bind {x : Except Refusal (α × List Token)}
    {f : α × List Token → Except Refusal (β × List Token)} (hx : StaysAt P x)
    (hf : ∀ a rest, x = .ok (a, rest) → AllAt P rest → StaysAt P (f (a, rest))) :
    StaysAt P (x >>= f) := by
  cases x with
  | error refusal => exact hx
  | ok result => exact hf result.1 result.2 rfl hx

theorem StaysAt.map {x : Except Refusal (α × List Token)} {f : α × List Token → β × List Token}
    (hx : StaysAt P x) (hf : ∀ a rest, (f (a, rest)).2 = rest) : StaysAt P (x.map f) := by
  cases x with
  | error refusal => exact hx
  | ok result =>
    change AllAt P (f (result.1, result.2)).2
    rw [hf]
    exact hx

-- As with what is read, the tail of a sum or a product has fewer tokens by `hlt`.
mutual

theorem staysAt_readSum (hstop : P stop) {tokens : List Token} (h : AllAt P tokens) :
    StaysAt P (bare (readSum stop tokens)) := by
  rw [bare_readSum]
  refine (staysAt_readProduct hstop h).bind fun lhs middle hlhs hmiddle => ?_
  have hlt := of_bare_eq_ok hlhs
  exact staysAt_readSumTail hstop hmiddle lhs
termination_by (tokens.length, 3)

theorem staysAt_readSumTail (hstop : P stop) {tokens : List Token} (h : AllAt P tokens)
    (lhs : Expr) : StaysAt P (bare (readSumTail stop lhs tokens)) := by
  by_cases hstart : StartsWith [.add, .sub] tokens
  · obtain ⟨op, hop, column, tokens, rfl⟩ := hstart
    rw [bare_readSumTail_operator hop]
    refine (staysAt_readProduct hstop h.tail).bind fun rhs middle hrhs hmiddle => ?_
    have hlt := Nat.lt_add_one_of_lt (of_bare_eq_ok hrhs)
    exact staysAt_readSumTail hstop hmiddle _
  · rw [bare_readSumTail_stop hstart]
    exact h
termination_by (tokens.length, 0)

theorem staysAt_readProduct (hstop : P stop) {tokens : List Token} (h : AllAt P tokens) :
    StaysAt P (bare (readProduct stop tokens)) := by
  rw [bare_readProduct]
  refine (staysAt_readUnary hstop h).bind fun lhs middle hlhs hmiddle => ?_
  have hlt := of_bare_eq_ok hlhs
  exact staysAt_readProductTail hstop hmiddle lhs
termination_by (tokens.length, 2)

theorem staysAt_readProductTail (hstop : P stop) {tokens : List Token} (h : AllAt P tokens)
    (lhs : Expr) : StaysAt P (bare (readProductTail stop lhs tokens)) := by
  by_cases hstart : StartsWith [.mul, .div, .mod] tokens
  · obtain ⟨op, hop, column, tokens, rfl⟩ := hstart
    rw [bare_readProductTail_operator hop]
    refine (staysAt_readUnary hstop h.tail).bind fun rhs middle hrhs hmiddle => ?_
    have hlt := Nat.lt_add_one_of_lt (of_bare_eq_ok hrhs)
    exact staysAt_readProductTail hstop hmiddle _
  · rw [bare_readProductTail_stop hstart]
    exact h
termination_by (tokens.length, 0)

theorem staysAt_readUnary (hstop : P stop) {tokens : List Token} (h : AllAt P tokens) :
    StaysAt P (bare (readUnary stop tokens)) := by
  by_cases hstart : StartsWith [.add, .sub] tokens
  · obtain ⟨op, hop, column, tokens, rfl⟩ := hstart
    obtain rfl | rfl : op = .add ∨ op = .sub := by simpa using hop
    · rw [bare_readUnary_plus]
      exact staysAt_readUnary hstop h.tail
    · by_cases hleast : (lexemes tokens).head? = some (.number (2 ^ 63))
      · obtain ⟨column', more, rfl⟩ := head?_lexemes_eq_some_iff.mp hleast
        rw [bare_readUnary_least]
        exact h.tail.tail
      · rw [bare_readUnary_minus hleast]
        exact (staysAt_readUnary hstop h.tail).map fun _ _ => rfl
  · rw [bare_readUnary_unsigned hstart]
    exact staysAt_readPrimary hstop h
termination_by (tokens.length, 1)

theorem staysAt_readPrimary (hstop : P stop) {tokens : List Token} (h : AllAt P tokens) :
    StaysAt P (bare (readPrimary stop tokens)) := by
  unfold readPrimary
  split
  · next value column more =>
    split
    · exact h.tail
    · exact h _ List.mem_cons_self
  · exact h.tail
  · next column more =>
    rw [← readPrimary, bare_readPrimary_brackets]
    refine (staysAt_readSum hstop h.tail).bind fun e rest _ hrest => ?_
    dsimp only
    split
    · exact fun token hm => hrest token (List.mem_of_mem_tail hm)
    · exact hrest.nextColumn hstop
  · exact h.nextColumn hstop
termination_by (tokens.length, 0)

end

theorem staysAt_readExpr (hstop : P stop) (h : AllAt P tokens) :
    StaysAt P (readExpr stop tokens) := staysAt_readSum hstop h

theorem staysAt_readOperand (hstop : P stop) (h : AllAt P tokens) :
    StaysAt P (readOperand stop tokens) := by
  unfold readOperand
  split
  · exact (staysAt_readExpr hstop h.tail).map fun _ _ => rfl
  · exact (staysAt_readExpr hstop h).map fun _ _ => rfl

theorem staysAt_readModifier (hstop : P stop) (h : AllAt P tokens) :
    StaysAt P (readModifier stop tokens) := by
  unfold readModifier
  split
  · split
    · exact h.tail.tail
    · exact h.tail _ List.mem_cons_self
  · exact h.tail.nextColumn hstop
  · exact h

theorem staysAt_readDraft (hstop : P stop) (h : AllAt P tokens) (opcode : Opcode) :
    StaysAt P (readDraft stop opcode tokens) := by
  rw [readDraft]
  refine (staysAt_readModifier hstop h).bind fun modifier rest _ hrest => ?_
  refine (staysAt_readOperand hstop hrest).bind fun a rest _ hrest => ?_
  dsimp only
  split
  · exact (staysAt_readOperand hstop hrest.tail).bind fun b rest _ hrest => hrest
  · exact hrest

def RefusesAt (P : Nat → Prop) (x : Except Refusal α) : Prop :=
  ∀ refusal, x = .error refusal → P refusal.column

theorem StaysAt.readAll {x : Except Refusal (α × List Token)} (hx : StaysAt P x) (f : α → β) :
    RefusesAt P (do let a ← expectEnd (← x); return f a) := by
  cases x with
  | error refusal =>
    rintro _ ⟨⟩
    exact hx
  | ok result =>
    obtain ⟨a, _ | ⟨token, more⟩⟩ := result
    · exact nofun
    · rintro _ ⟨⟩
      exact hx token List.mem_cons_self

theorem refusesAt_readBody (hstop : P stop) (h : AllAt P tokens) (labelled : Bool) :
    RefusesAt P (readBody stop labelled tokens) := by
  unfold readBody
  split
  · exact nofun
  · next word column more =>
    have hmore := h.tail
    split
    · rintro _ ⟨⟩
      exact h _ List.mem_cons_self
    · exact (staysAt_readDraft hstop hmore _).readAll _
    · exact (staysAt_readExpr hstop hmore).readAll _
    · split
      · exact nofun
      · exact (staysAt_readExpr hstop hmore).readAll _
    · split
      · rintro _ ⟨⟩
        exact h _ List.mem_cons_self
      · exact (staysAt_readExpr hstop hmore).readAll _
  · rintro _ ⟨⟩
    exact h _ List.mem_cons_self

end

theorem isPlace_endColumn {text : List Char}
    (h : Text.IsAscii (text.takeWhile (· != ';'))) : IsPlace 1 text (endColumn text) := by
  obtain ⟨blanks, hblanks⟩ := Text.trimEnd_isPrefix (text.takeWhile (· != ';'))
  have hcode : Text.IsAscii (Text.trimEnd (text.takeWhile (· != ';'))) := by
    intro c hc
    apply h
    rw [← hblanks]
    exact List.mem_append_left _ hc
  refine ⟨_, blanks ++ text.dropWhile (· != ';'), ?_, hcode, ?_⟩
  · rw [← List.append_assoc, hblanks, List.takeWhile_append_dropWhile]
  · rw [endColumn, hcode.byteLength_eq, Nat.add_comm]

theorem isPlace_of_read_error {pending : Bool} {text : List Char} {refusal : Refusal}
    (h : Line.read pending text = .error refusal) : IsPlace 1 text refusal.column := by
  rw [Line.read] at h
  split at h
  · cases h
  · split at h
    · next hscan =>
      cases h
      exact isPlace_of_scan_error hscan
    · cases h
    · next tokens _ hscan =>
      obtain ⟨hplaces, hascii⟩ := isPlace_of_scan_ok hscan
      obtain ⟨taken, htokens, _⟩ := labelsForm_of_readLabels (Prod.eta (readLabels tokens)).symm
      have hrest : AllAt (IsPlace 1 text) (readLabels tokens).2 := by
        intro token hm
        apply hplaces
        rw [htokens]
        exact List.mem_append_right _ hm
      exact refusesAt_readBody (isPlace_endColumn hascii) hrest _ _ (map_eq_error_iff.mp h)

end Source

end CoreWar
