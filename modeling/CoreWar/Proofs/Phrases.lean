import CoreWar.Proofs.Checks
import CoreWar.Source.Phrase
import Mathlib.Algebra.Group.Nat.Defs

namespace CoreWar.Source

def lexemes (tokens : List Token) : List Lexeme := tokens.map (·.lexeme)

theorem lexemes_append (tokens more : List Token) :
    lexemes (tokens ++ more) = lexemes tokens ++ lexemes more := List.map_append

theorem lexemes_eq_cons_iff {tokens : List Token} {lexeme : Lexeme} {more : List Lexeme} :
    lexemes tokens = lexeme :: more ↔
      ∃ column rest, tokens = ⟨lexeme, column⟩ :: rest ∧ lexemes rest = more := by
  rw [lexemes, List.map_eq_cons_iff]
  constructor
  · rintro ⟨⟨_, column⟩, rest, rfl, rfl, rfl⟩
    exact ⟨column, rest, rfl, rfl⟩
  · rintro ⟨column, rest, rfl, rfl⟩
    exact ⟨_, rest, rfl, rfl, rfl⟩

theorem lexemes_eq_append_iff {tokens : List Token} {used more : List Lexeme} :
    lexemes tokens = used ++ more ↔
      ∃ taken rest, tokens = taken ++ rest ∧ lexemes taken = used ∧ lexemes rest = more :=
  List.map_eq_append_iff

theorem head?_lexemes_eq_some_iff {tokens : List Token} {lexeme : Lexeme} :
    (lexemes tokens).head? = some lexeme ↔ ∃ column more, tokens = ⟨lexeme, column⟩ :: more := by
  constructor
  · intro h
    obtain _ | ⟨⟨first, column⟩, more⟩ := tokens
    · cases h
    · cases h
      exact ⟨column, more, rfl⟩
  · rintro ⟨column, more, rfl⟩
    rfl

inductive Rank where
  | sum | product | unary | primary

/-- The lexemes of a phrase and the expression that they stand for. A minus sign makes a number of
a number, and the least number has no other form. -/
inductive Derives : Rank → List Lexeme → Expr → Prop
  | literal {value : Nat} (h : value ≤ 2 ^ 63 - 1) :
      Derives .primary [.number value] (.number (.ofNat value))
  | word (name : String) : Derives .primary [.word name] (.symbol name)
  | brackets {inner : List Lexeme} {e : Expr} (h : Derives .sum inner e) :
      Derives .primary (.opening :: (inner ++ [.closing])) e
  | primary {used : List Lexeme} {e : Expr} (h : Derives .primary used e) : Derives .unary used e
  | least : Derives .unary [.operator .sub, .number (2 ^ 63)] (.number Int64.minValue)
  | minusNumber {used : List Lexeme} {value : Int64} (h : Derives .unary used (.number value)) :
      Derives .unary (.operator .sub :: used) (.number (-value))
  | minus {used : List Lexeme} {e : Expr} (h : Derives .unary used e)
      (hother : ∀ value, e ≠ .number value) :
      Derives .unary (.operator .sub :: used) (.binary .sub (.number 0) e)
  | plus {used : List Lexeme} {e : Expr} (h : Derives .unary used e) :
      Derives .unary (.operator .add :: used) e
  | factor {used : List Lexeme} {e : Expr} (h : Derives .unary used e) : Derives .product used e
  | product {used more : List Lexeme} {lhs rhs : Expr} {op : Operator}
      (hop : op ∈ [.mul, .div, .mod]) (hl : Derives .product used lhs)
      (hr : Derives .unary more rhs) :
      Derives .product (used ++ .operator op :: more) (.binary op lhs rhs)
  | term {used : List Lexeme} {e : Expr} (h : Derives .product used e) : Derives .sum used e
  | sum {used more : List Lexeme} {lhs rhs : Expr} {op : Operator} (hop : op ∈ [.add, .sub])
      (hl : Derives .sum used lhs) (hr : Derives .product more rhs) :
      Derives .sum (used ++ .operator op :: more) (.binary op lhs rhs)

section

variable {p : List Token → Prop}

def bare (result : Except Refusal (Expr × { rest : List Token // p rest })) :
    Except Refusal (Expr × List Token) :=
  result.map fun (e, rest) => (e, rest.val)

theorem of_bare_eq_ok {result : Except Refusal (Expr × { rest : List Token // p rest })} {e : Expr}
    {rest : List Token} (h : bare result = .ok (e, rest)) : p rest := by
  obtain ⟨⟨_, rest, hrest⟩, _, he⟩ := map_eq_ok_iff.mp h
  cases he
  exact hrest

end

variable {stop : Nat}

theorem isAdditive_iff {op : Operator} : op.isAdditive = true ↔ op ∈ [Operator.add, .sub] := by
  cases op <;> decide

theorem not_isAdditive_iff {op : Operator} :
    op.isAdditive = false ↔ op ∈ [Operator.mul, .div, .mod] := by
  cases op <;> decide

theorem bare_readSum (tokens : List Token) :
    bare (readSum stop tokens) = bare (readProduct stop tokens) >>= fun (lhs, rest) =>
      bare (readSumTail stop lhs rest) := by
  rw [readSum]
  cases readProduct stop tokens with
  | error refusal => rfl
  | ok result =>
    obtain ⟨lhs, rest, h⟩ := result
    dsimp only [bare, Except.map, bind, Except.bind]
    cases readSumTail stop lhs rest <;> rfl

theorem bare_readProduct (tokens : List Token) :
    bare (readProduct stop tokens) = bare (readUnary stop tokens) >>= fun (lhs, rest) =>
      bare (readProductTail stop lhs rest) := by
  rw [readProduct]
  cases readUnary stop tokens with
  | error refusal => rfl
  | ok result =>
    obtain ⟨lhs, rest, h⟩ := result
    dsimp only [bare, Except.map, bind, Except.bind]
    cases readProductTail stop lhs rest <;> rfl

theorem bare_readSumTail_operator {op : Operator} (hop : op ∈ [.add, .sub]) (lhs : Expr)
    (column : Nat) (more : List Token) :
    bare (readSumTail stop lhs (⟨.operator op, column⟩ :: more)) =
      bare (readProduct stop more) >>= fun (rhs, rest) =>
        bare (readSumTail stop (.binary op lhs rhs) rest) := by
  rw [readSumTail, if_pos (isAdditive_iff.mpr hop)]
  cases readProduct stop more with
  | error refusal => rfl
  | ok result =>
    obtain ⟨rhs, rest, h⟩ := result
    dsimp only [bare, Except.map, bind, Except.bind]
    cases readSumTail stop (.binary op lhs rhs) rest <;> rfl

theorem bare_readProductTail_operator {op : Operator} (hop : op ∈ [.mul, .div, .mod]) (lhs : Expr)
    (column : Nat) (more : List Token) :
    bare (readProductTail stop lhs (⟨.operator op, column⟩ :: more)) =
      bare (readUnary stop more) >>= fun (rhs, rest) =>
        bare (readProductTail stop (.binary op lhs rhs) rest) := by
  rw [readProductTail, if_neg (by simp [not_isAdditive_iff.mpr hop])]
  cases readUnary stop more with
  | error refusal => rfl
  | ok result =>
    obtain ⟨rhs, rest, h⟩ := result
    dsimp only [bare, Except.map, bind, Except.bind]
    cases readProductTail stop (.binary op lhs rhs) rest <;> rfl

def StartsWith (ops : List Operator) (tokens : List Token) : Prop :=
  ∃ op ∈ ops, ∃ column more, tokens = ⟨.operator op, column⟩ :: more

theorem not_startsWith_nil (ops : List Operator) : ¬ StartsWith ops [] := by
  rintro ⟨_, _, _, _, he⟩
  cases he

theorem not_startsWith_of_ne {lexeme : Lexeme} (h : ∀ op, lexeme ≠ .operator op) (column : Nat)
    (more : List Token) (ops : List Operator) : ¬ StartsWith ops (⟨lexeme, column⟩ :: more) := by
  rintro ⟨op, _, _, _, he⟩
  cases he
  exact h op rfl

theorem bare_readSumTail_stop {tokens : List Token} (h : ¬ StartsWith [.add, .sub] tokens)
    (lhs : Expr) : bare (readSumTail stop lhs tokens) = .ok (lhs, tokens) := by
  unfold readSumTail
  split
  · next op column more =>
    by_cases hop : op ∈ [Operator.add, .sub]
    · exact absurd ⟨op, hop, column, more, rfl⟩ h
    · rw [if_neg (mt isAdditive_iff.mp hop)]
      rfl
  · rfl

theorem bare_readProductTail_stop {tokens : List Token} (h : ¬ StartsWith [.mul, .div, .mod] tokens)
    (lhs : Expr) : bare (readProductTail stop lhs tokens) = .ok (lhs, tokens) := by
  unfold readProductTail
  split
  · next op column more =>
    by_cases hop : op ∈ [Operator.mul, .div, .mod]
    · exact absurd ⟨op, hop, column, more, rfl⟩ h
    · rw [if_pos (by simpa using mt not_isAdditive_iff.mp hop)]
      rfl
  · rfl

theorem leastMagnitude_eq : leastMagnitude = 2 ^ 63 := by decide

theorem bare_readUnary_least (column column' : Nat) (more : List Token) :
    bare (readUnary stop (⟨.operator .sub, column⟩ :: ⟨.number (2 ^ 63), column'⟩ :: more)) =
      .ok (.number Int64.minValue, more) := by
  rw [readUnary, if_pos (by simp [leastMagnitude_eq])]
  rfl

theorem bare_readUnary_minus {tokens : List Token}
    (h : (lexemes tokens).head? ≠ some (.number (2 ^ 63))) (column : Nat) :
    bare (readUnary stop (⟨.operator .sub, column⟩ :: tokens)) =
      (bare (readUnary stop tokens)).map fun (e, rest) => (e.negate, rest) := by
  rw [lexemes, List.head?_map, ← leastMagnitude_eq] at h
  rw [readUnary, if_neg h]
  cases readUnary stop tokens <;> rfl

theorem bare_readUnary_plus (column : Nat) (tokens : List Token) :
    bare (readUnary stop (⟨.operator .add, column⟩ :: tokens)) = bare (readUnary stop tokens) := by
  rw [readUnary]
  cases readUnary stop tokens <;> rfl

theorem bare_readUnary_unsigned {tokens : List Token} (h : ¬ StartsWith [.add, .sub] tokens) :
    bare (readUnary stop tokens) = bare (readPrimary stop tokens) := by
  unfold readUnary
  split
  · next column more => exact absurd ⟨.sub, by decide, column, more, rfl⟩ h
  · next column more => exact absurd ⟨.add, by decide, column, more, rfl⟩ h
  · rfl

theorem bare_readPrimary_literal {value : Nat} (h : value ≤ 2 ^ 63 - 1) (column : Nat)
    (more : List Token) :
    bare (readPrimary stop (⟨.number value, column⟩ :: more)) =
      .ok (.number (.ofNat value), more) := by
  have hlt : value < leastMagnitude := by
    rw [leastMagnitude_eq]
    omega
  rw [readPrimary, if_pos hlt]
  rfl

theorem bare_readPrimary_word (name : String) (column : Nat) (more : List Token) :
    bare (readPrimary stop (⟨.word name, column⟩ :: more)) = .ok (.symbol name, more) := by
  rw [readPrimary]
  rfl

theorem bare_readPrimary_brackets (column : Nat) (tokens : List Token) :
    bare (readPrimary stop (⟨.opening, column⟩ :: tokens)) =
      bare (readSum stop tokens) >>= fun (e, rest) =>
        if (lexemes rest).head? = some .closing then .ok (e, rest.tail)
        else .error ⟨nextColumn stop rest, .closingExpected⟩ := by
  rw [readPrimary]
  cases readSum stop tokens with
  | error refusal => rfl
  | ok result =>
    obtain ⟨e, rest, h⟩ := result
    dsimp only [bare, Except.map, bind, Except.bind]
    rw [lexemes, List.head?_map]
    by_cases hclosing : rest.head?.map (·.lexeme) = some .closing
    · rw [if_pos hclosing, if_pos hclosing]
    · rw [if_neg hclosing, if_neg hclosing]

theorem readPrimary_cases {tokens rest : List Token} {e : Expr}
    (h : bare (readPrimary stop tokens) = .ok (e, rest)) :
    (∃ value column, value ≤ 2 ^ 63 - 1 ∧ e = .number (.ofNat value) ∧
      tokens = ⟨.number value, column⟩ :: rest) ∨
    (∃ name column, e = .symbol name ∧ tokens = ⟨.word name, column⟩ :: rest) ∨
    ∃ inner column column', tokens = ⟨.opening, column⟩ :: inner ∧
      bare (readSum stop inner) = .ok (e, ⟨.closing, column'⟩ :: rest) := by
  unfold readPrimary at h
  split at h
  · next value column more =>
    by_cases hvalue : value < leastMagnitude
    · rw [if_pos hvalue] at h
      cases h
      rw [leastMagnitude_eq] at hvalue
      exact .inl ⟨value, column, by omega, rfl, rfl⟩
    · rw [if_neg hvalue] at h
      cases h
  · next name column more =>
    cases h
    exact .inr (.inl ⟨name, column, rfl, rfl⟩)
  · next column more =>
    rw [← readPrimary, bare_readPrimary_brackets, bind_eq_ok_iff] at h
    obtain ⟨⟨inner, left⟩, hinner, h⟩ := h
    dsimp only at h
    by_cases hclosing : (lexemes left).head? = some .closing
    · obtain ⟨column', left, rfl⟩ := head?_lexemes_eq_some_iff.mp hclosing
      cases h
      exact .inr (.inr ⟨more, column, column', rfl, hinner⟩)
    · rw [if_neg hclosing] at h
      cases h
  · cases h

/-- A phrase of the grammar stands before `rest`. -/
def Takes (rank : Rank) (tokens : List Token) (e : Expr) (rest : List Token) : Prop :=
  ∃ taken, tokens = taken ++ rest ∧ Derives rank (lexemes taken) e

theorem Takes.minus {tokens rest : List Token} {e : Expr} (h : Takes .unary tokens e rest)
    (column : Nat) : Takes .unary (⟨.operator .sub, column⟩ :: tokens) e.negate rest := by
  obtain ⟨taken, rfl, hderives⟩ := h
  refine ⟨⟨.operator .sub, column⟩ :: taken, rfl, ?_⟩
  cases e with
  | number value => exact .minusNumber hderives
  | symbol name | binary op lhs rhs => exact .minus hderives (by simp)

theorem Takes.plus {tokens rest : List Token} {e : Expr} (h : Takes .unary tokens e rest)
    (column : Nat) : Takes .unary (⟨.operator .add, column⟩ :: tokens) e rest := by
  obtain ⟨taken, rfl, hderives⟩ := h
  exact ⟨⟨.operator .add, column⟩ :: taken, rfl, .plus hderives⟩

theorem Takes.of_primary {tokens rest : List Token} {e : Expr} (h : Takes .primary tokens e rest) :
    Takes .unary tokens e rest := by
  obtain ⟨taken, rfl, hderives⟩ := h
  exact ⟨taken, rfl, .primary hderives⟩

/-- Whatever the terms before have been, a sum goes on to `rest`. -/
def TakesOn (rank : Rank) (lhs : Expr) (tokens : List Token) (e : Expr) (rest : List Token) :
    Prop :=
  ∃ taken, tokens = taken ++ rest ∧
    ∀ before, Derives rank before lhs → Derives rank (before ++ lexemes taken) e

theorem TakesOn.refl (rank : Rank) (e : Expr) (rest : List Token) : TakesOn rank e rest e rest :=
  ⟨[], rfl, fun before h => by rwa [lexemes, List.map_nil, List.append_nil]⟩

/-- A phrase and what goes on after it, where the phrase by itself also has the higher rank. -/
theorem Takes.append {inner rank : Rank} {tokens middle rest : List Token} {lhs e : Expr}
    (h : Takes inner tokens lhs middle)
    (hrank : ∀ used, Derives inner used lhs → Derives rank used lhs)
    (hmore : TakesOn rank lhs middle e rest) : Takes rank tokens e rest := by
  obtain ⟨first, rfl, hfirst⟩ := h
  obtain ⟨more, rfl, hderives⟩ := hmore
  refine ⟨first ++ more, (List.append_assoc ..).symm, ?_⟩
  rw [lexemes_append]
  exact hderives _ (hrank _ hfirst)

theorem TakesOn.operator {inner rank : Rank} {op : Operator} {tokens middle rest : List Token}
    {lhs rhs e : Expr} (hmore : TakesOn rank (.binary op lhs rhs) middle e rest)
    (hop : ∀ used more, Derives rank used lhs → Derives inner more rhs →
      Derives rank (used ++ .operator op :: more) (.binary op lhs rhs))
    (h : Takes inner tokens rhs middle) (column : Nat) :
    TakesOn rank lhs (⟨.operator op, column⟩ :: tokens) e rest := by
  obtain ⟨first, rfl, hfirst⟩ := h
  obtain ⟨more, rfl, hderives⟩ := hmore
  refine ⟨⟨.operator op, column⟩ :: (first ++ more), by simp, ?_⟩
  intro before hbefore
  have hwhole := hderives _ (hop _ _ hbefore hfirst)
  simpa [lexemes] using hwhole

-- The readers call each other on fewer tokens, or on as many for a phrase that binds stronger, and
-- so do these: `hlt` says that the tail of a sum or a product has fewer.
mutual

theorem takes_of_readSum {tokens rest : List Token} {e : Expr}
    (h : bare (readSum stop tokens) = .ok (e, rest)) : Takes .sum tokens e rest := by
  rw [bare_readSum, bind_eq_ok_iff] at h
  obtain ⟨⟨lhs, middle⟩, hlhs, htail⟩ := h
  have hlt := of_bare_eq_ok hlhs
  exact (takes_of_readProduct hlhs).append (fun _ => .term) (takesOn_of_readSumTail htail)
termination_by (tokens.length, 3)

theorem takesOn_of_readSumTail {tokens rest : List Token} {lhs e : Expr}
    (h : bare (readSumTail stop lhs tokens) = .ok (e, rest)) : TakesOn .sum lhs tokens e rest := by
  by_cases hstart : StartsWith [.add, .sub] tokens
  · obtain ⟨op, hop, column, tokens, rfl⟩ := hstart
    rw [bare_readSumTail_operator hop, bind_eq_ok_iff] at h
    obtain ⟨⟨rhs, middle⟩, hrhs, htail⟩ := h
    have hlt := Nat.lt_add_one_of_lt (of_bare_eq_ok hrhs)
    exact (takesOn_of_readSumTail htail).operator (fun _ _ => .sum hop)
      (takes_of_readProduct hrhs) column
  · rw [bare_readSumTail_stop hstart] at h
    cases h
    exact .refl ..
termination_by (tokens.length, 0)

theorem takes_of_readProduct {tokens rest : List Token} {e : Expr}
    (h : bare (readProduct stop tokens) = .ok (e, rest)) : Takes .product tokens e rest := by
  rw [bare_readProduct, bind_eq_ok_iff] at h
  obtain ⟨⟨lhs, middle⟩, hlhs, htail⟩ := h
  have hlt := of_bare_eq_ok hlhs
  exact (takes_of_readUnary hlhs).append (fun _ => .factor) (takesOn_of_readProductTail htail)
termination_by (tokens.length, 2)

theorem takesOn_of_readProductTail {tokens rest : List Token} {lhs e : Expr}
    (h : bare (readProductTail stop lhs tokens) = .ok (e, rest)) :
    TakesOn .product lhs tokens e rest := by
  by_cases hstart : StartsWith [.mul, .div, .mod] tokens
  · obtain ⟨op, hop, column, tokens, rfl⟩ := hstart
    rw [bare_readProductTail_operator hop, bind_eq_ok_iff] at h
    obtain ⟨⟨rhs, middle⟩, hrhs, htail⟩ := h
    have hlt := Nat.lt_add_one_of_lt (of_bare_eq_ok hrhs)
    exact (takesOn_of_readProductTail htail).operator (fun _ _ => .product hop)
      (takes_of_readUnary hrhs) column
  · rw [bare_readProductTail_stop hstart] at h
    cases h
    exact .refl ..
termination_by (tokens.length, 0)

theorem takes_of_readUnary {tokens rest : List Token} {e : Expr}
    (h : bare (readUnary stop tokens) = .ok (e, rest)) : Takes .unary tokens e rest := by
  by_cases hstart : StartsWith [.add, .sub] tokens
  · obtain ⟨op, hop, column, tokens, rfl⟩ := hstart
    obtain rfl | rfl : op = .add ∨ op = .sub := by simpa using hop
    · rw [bare_readUnary_plus] at h
      exact (takes_of_readUnary h).plus column
    · by_cases hleast : (lexemes tokens).head? = some (.number (2 ^ 63))
      · obtain ⟨column', more, rfl⟩ := head?_lexemes_eq_some_iff.mp hleast
        rw [bare_readUnary_least] at h
        cases h
        exact ⟨[_, _], rfl, .least⟩
      · rw [bare_readUnary_minus hleast, map_eq_ok_iff] at h
        obtain ⟨⟨inner, _⟩, hinner, he⟩ := h
        cases he
        exact (takes_of_readUnary hinner).minus column
  · rw [bare_readUnary_unsigned hstart] at h
    exact (takes_of_readPrimary h).of_primary
termination_by (tokens.length, 1)

theorem takes_of_readPrimary {tokens rest : List Token} {e : Expr}
    (h : bare (readPrimary stop tokens) = .ok (e, rest)) : Takes .primary tokens e rest := by
  obtain ⟨value, column, hvalue, rfl, rfl⟩ | ⟨name, column, rfl, rfl⟩ |
    ⟨inner, column, column', rfl, hinner⟩ := readPrimary_cases h
  · exact ⟨[_], rfl, .literal hvalue⟩
  · exact ⟨[_], rfl, .word name⟩
  · obtain ⟨taken, rfl, htaken⟩ := takes_of_readSum hinner
    refine ⟨⟨.opening, column⟩ :: (taken ++ [⟨.closing, column'⟩]), by simp, ?_⟩
    have hderives := Derives.brackets htaken
    simpa [lexemes] using hderives
termination_by (tokens.length, 0)

end

theorem takes_of_readExpr {tokens rest : List Token} {e : Expr}
    (h : readExpr stop tokens = .ok (e, rest)) : Takes .sum tokens e rest :=
  takes_of_readSum h

def Lexeme.Opens : Lexeme → Prop
  | word _ | opening => True
  | operator op => op ∈ [.add, .sub]
  | number value => value ≤ 2 ^ 63 - 1
  | _ => False

theorem Derives.exists_eq_cons {rank : Rank} {used : List Lexeme} {e : Expr}
    (h : Derives rank used e) :
    ∃ first more, used = first :: more ∧ first.Opens ∧
      (rank = .primary → ∀ op, first ≠ .operator op) := by
  induction h with
  | literal h => exact ⟨_, _, rfl, h, by simp⟩
  | word name => exact ⟨_, _, rfl, trivial, by simp⟩
  | brackets _ _ => exact ⟨_, _, rfl, trivial, by simp⟩
  | least => exact ⟨_, _, rfl, .tail _ (.head _), by simp⟩
  | minusNumber _ _ | minus _ _ _ => exact ⟨_, _, rfl, .tail _ (.head _), by simp⟩
  | plus _ _ => exact ⟨_, _, rfl, .head _, by simp⟩
  | primary _ ih | factor _ ih | term _ ih =>
    obtain ⟨first, more, rfl, hfirst, _⟩ := ih
    exact ⟨first, more, rfl, hfirst, by simp⟩
  | product _ _ _ ih _ | sum _ _ _ ih _ =>
    obtain ⟨first, more, rfl, hfirst, _⟩ := ih
    exact ⟨first, _, rfl, hfirst, by simp⟩

/-- What the reader of a rank makes of a phrase before `rest`. A sum or a product may go on
there. -/
def Reads (stop : Nat) (rank : Rank) (taken rest : List Token) (e : Expr) : Prop :=
  match rank with
  | .primary => bare (readPrimary stop (taken ++ rest)) = .ok (e, rest)
  | .unary => bare (readUnary stop (taken ++ rest)) = .ok (e, rest)
  | .product => bare (readProduct stop (taken ++ rest)) = bare (readProductTail stop e rest)
  | .sum => ¬ StartsWith [.mul, .div, .mod] rest →
      bare (readSum stop (taken ++ rest)) = bare (readSumTail stop e rest)

theorem Derives.head?_append {rank : Rank} {taken : List Token} {e : Expr}
    (h : Derives rank (lexemes taken) e) (rest : List Token) :
    (lexemes (taken ++ rest)).head? = (lexemes taken).head? := by
  obtain ⟨first, more, hfirst, _, _⟩ := h.exists_eq_cons
  rw [lexemes_append, hfirst]
  rfl

theorem Derives.not_startsWith_append {taken : List Token} {e : Expr}
    (h : Derives .primary (lexemes taken) e) (ops : List Operator) (rest : List Token) :
    ¬ StartsWith ops (taken ++ rest) := by
  rintro ⟨op, _, column, more, he⟩
  obtain ⟨first, _, hfirst, _, hunsigned⟩ := h.exists_eq_cons
  have hhead := h.head?_append rest
  rw [he, hfirst] at hhead
  exact hunsigned rfl op (Option.some.inj hhead).symm

theorem Derives.bare_readUnary_minus {taken rest : List Token} {e : Expr}
    (h : Derives .unary (lexemes taken) e) (hreads : Reads stop .unary taken rest e)
    (column : Nat) :
    bare (readUnary stop (⟨.operator .sub, column⟩ :: (taken ++ rest))) = .ok (e.negate, rest) := by
  have hhead : (lexemes (taken ++ rest)).head? ≠ some (.number (2 ^ 63)) := by
    obtain ⟨first, _, hfirst, hopens, _⟩ := h.exists_eq_cons
    rw [h.head?_append rest, hfirst]
    rintro ⟨⟩
    simp [Lexeme.Opens] at hopens
  rw [Source.bare_readUnary_minus hhead, map_eq_ok_iff]
  exact ⟨_, hreads, rfl⟩

theorem Derives.reads {rank : Rank} {used : List Lexeme} {e : Expr} (h : Derives rank used e)
    {taken rest : List Token} (htaken : lexemes taken = used) : Reads stop rank taken rest e := by
  induction h generalizing taken rest with
  | literal h =>
    obtain ⟨column, _, rfl, hnil⟩ := lexemes_eq_cons_iff.mp htaken
    obtain rfl := List.map_eq_nil_iff.mp hnil
    exact bare_readPrimary_literal h column rest
  | word name =>
    obtain ⟨column, _, rfl, hnil⟩ := lexemes_eq_cons_iff.mp htaken
    obtain rfl := List.map_eq_nil_iff.mp hnil
    exact bare_readPrimary_word name column rest
  | @brackets inner e _ ih =>
    obtain ⟨column, _, rfl, hmore⟩ := lexemes_eq_cons_iff.mp htaken
    obtain ⟨body, _, rfl, hbody, hclosing⟩ := lexemes_eq_append_iff.mp hmore
    obtain ⟨column', _, rfl, hnil⟩ := lexemes_eq_cons_iff.mp hclosing
    obtain rfl := List.map_eq_nil_iff.mp hnil
    have hstops : ∀ ops, ¬ StartsWith ops (⟨.closing, column'⟩ :: rest) :=
      not_startsWith_of_ne (by simp) column' rest
    have hsum : bare (readSum stop (body ++ ⟨.closing, column'⟩ :: rest)) = _ := ih hbody (hstops _)
    rw [bare_readSumTail_stop (hstops _)] at hsum
    change bare (readPrimary stop
      (⟨.opening, column⟩ :: (body ++ [⟨.closing, column'⟩] ++ rest))) = _
    rw [List.append_assoc, bare_readPrimary_brackets, bind_eq_ok_iff]
    exact ⟨_, hsum, rfl⟩
  | primary h ih =>
    subst htaken
    exact (bare_readUnary_unsigned (h.not_startsWith_append _ rest)).trans (ih rfl)
  | least =>
    obtain ⟨column, _, rfl, hmore⟩ := lexemes_eq_cons_iff.mp htaken
    obtain ⟨column', _, rfl, hnil⟩ := lexemes_eq_cons_iff.mp hmore
    obtain rfl := List.map_eq_nil_iff.mp hnil
    exact bare_readUnary_least column column' rest
  | minusNumber h ih =>
    obtain ⟨column, more, rfl, rfl⟩ := lexemes_eq_cons_iff.mp htaken
    exact h.bare_readUnary_minus (ih rfl) column
  | @minus _ e h hother ih =>
    obtain ⟨column, more, rfl, rfl⟩ := lexemes_eq_cons_iff.mp htaken
    have hnegate : e.negate = .binary .sub (.number 0) e := by
      cases e with
      | number value => exact absurd rfl (hother value)
      | symbol name | binary op lhs rhs => rfl
    rw [← hnegate]
    exact h.bare_readUnary_minus (ih rfl) column
  | plus h ih =>
    obtain ⟨column, more, rfl, hmore⟩ := lexemes_eq_cons_iff.mp htaken
    exact (bare_readUnary_plus column _).trans (ih hmore)
  | factor h ih =>
    have hfactor : bare (readUnary stop (taken ++ rest)) = _ := ih htaken
    change bare (readProduct stop (taken ++ rest)) = _
    rw [bare_readProduct, hfactor]
    rfl
  | @product _ _ lhs rhs op hop hl hr ihl ihr =>
    obtain ⟨first, _, rfl, hfirst, hmore⟩ := lexemes_eq_append_iff.mp htaken
    obtain ⟨column, second, rfl, hsecond⟩ := lexemes_eq_cons_iff.mp hmore
    have hlhs : bare (readProduct stop (first ++ ⟨.operator op, column⟩ :: (second ++ rest))) = _ :=
      ihl hfirst
    have hrhs : bare (readUnary stop (second ++ rest)) = _ := ihr hsecond
    change bare (readProduct stop (first ++ ⟨.operator op, column⟩ :: second ++ rest)) = _
    rw [List.append_assoc, List.cons_append, hlhs, bare_readProductTail_operator hop, hrhs]
    rfl
  | term h ih =>
    intro hrest
    have hterm : bare (readProduct stop (taken ++ rest)) = _ := ih htaken
    rw [bare_readSum, hterm, bare_readProductTail_stop hrest]
    rfl
  | @sum _ _ lhs rhs op hop hl hr ihl ihr =>
    obtain ⟨first, _, rfl, hfirst, hmore⟩ := lexemes_eq_append_iff.mp htaken
    obtain ⟨column, second, rfl, hsecond⟩ := lexemes_eq_cons_iff.mp hmore
    intro hrest
    have hnext : ¬ StartsWith [.mul, .div, .mod] (⟨.operator op, column⟩ :: (second ++ rest)) := by
      rintro ⟨other, hother, _, _, he⟩
      cases he
      cases op <;> simp at hop hother
    have hlhs := ihl hfirst hnext
    have hrhs : bare (readProduct stop (second ++ rest)) = _ := ihr hsecond
    rw [bare_readProductTail_stop hrest] at hrhs
    rw [List.append_assoc, List.cons_append, hlhs, bare_readSumTail_operator hop, hrhs]
    rfl

/-- An expression is read up to where no operator follows. -/
theorem Derives.readExpr_eq {taken rest : List Token} {e : Expr}
    (h : Derives .sum (lexemes taken) e) (hrest : ∀ ops, ¬ StartsWith ops rest) :
    readExpr stop (taken ++ rest) = .ok (e, rest) := by
  have hsum : bare (readSum stop (taken ++ rest)) = _ := h.reads rfl (hrest _)
  rw [bare_readSumTail_stop (hrest _)] at hsum
  exact hsum

end CoreWar.Source
