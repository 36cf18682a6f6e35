import CoreWar.Proofs.Phrases
import CoreWar.Source.Line
import Mathlib.Data.List.Nodup

namespace CoreWar

theorem find?_sameName_eq_some_iff {α : Type} {all : List α} {text : α → String}
    (hall : ∀ a, a ∈ all) (hnodup : (all.map fun a => Text.lowerCase (text a)).Nodup)
    {word : String} {a : α} :
    all.find? (fun b => Text.sameName word (text b)) = some a ↔ Text.sameName word (text a) := by
  constructor
  · intro h
    have hfound := List.find?_some h
    exact hfound
  · intro h
    cases hb : all.find? fun b => Text.sameName word (text b) with
    | none => exact absurd h (List.find?_eq_none.mp hb a (hall a))
    | some b =>
      have hfound := List.find?_some hb
      have hsame : Text.lowerCase (text b) = Text.lowerCase (text a) :=
        (beq_iff_eq.mp hfound).symm.trans (beq_iff_eq.mp h)
      rw [List.inj_on_of_nodup_map hnodup (hall b) (hall a) hsame]

theorem Modifier.ofName?_eq_some_iff {word : String} {modifier : Modifier} :
    ofName? word = some modifier ↔ Text.sameName word modifier.name :=
  find?_sameName_eq_some_iff (fun modifier => by cases modifier <;> decide) (by decide +kernel)

namespace Source

namespace Keyword

def all : List Keyword := Opcode.all.map opcode ++ [origin, finish, equate]

def text : Keyword → String
  | opcode op => op.mnemonic
  | origin => "ORG"
  | finish => "END"
  | equate => "EQU"

theorem ofWord?_eq_find? (word : String) :
    ofWord? word = all.find? fun keyword => Text.sameName word keyword.text := by
  rw [ofWord?, Opcode.ofMnemonic?, all, List.find?_append, List.find?_map]
  simp only [Function.comp_def, text]
  cases Opcode.all.find? fun op => Text.sameName word op.mnemonic with
  | some op => rfl
  | none =>
    simp only [List.find?_cons, List.find?_nil, Option.map_none, Option.none_or]
    cases Text.sameName word "ORG" <;> cases Text.sameName word "END" <;>
      cases Text.sameName word "EQU" <;> rfl

theorem ofWord?_eq_some_iff {word : String} {keyword : Keyword} :
    ofWord? word = some keyword ↔ Text.sameName word keyword.text := by
  rw [ofWord?_eq_find?]
  refine find?_sameName_eq_some_iff ?_ (by decide +kernel)
  intro keyword
  cases keyword with
  | opcode op => cases op <;> decide
  | origin | finish | equate => decide

theorem ofWord?_eq_none_iff {word : String} :
    ofWord? word = none ↔ ∀ keyword : Keyword, ¬ Text.sameName word keyword.text := by
  simp only [← ofWord?_eq_some_iff, Option.eq_none_iff_forall_ne_some]

end Keyword

/-- Labels are words other than keywords. A colon may follow each of them. -/
inductive LabelsForm : List Lexeme → List String → Prop
  | nil : LabelsForm [] []
  | plain {name : String} {used : List Lexeme} {names : List String}
      (h : ∀ keyword : Keyword, ¬ Text.sameName name keyword.text) (hmore : LabelsForm used names) :
      LabelsForm (.word name :: used) (name :: names)
  | colon {name : String} {used : List Lexeme} {names : List String}
      (h : ∀ keyword : Keyword, ¬ Text.sameName name keyword.text) (hmore : LabelsForm used names) :
      LabelsForm (.word name :: .colon :: used) (name :: names)

inductive ModifierForm : List Lexeme → Option Modifier → Prop
  | absent : ModifierForm [] none
  | dot {name : String} {modifier : Modifier} (h : Text.sameName name modifier.name) :
      ModifierForm [.dot, .word name] (some modifier)

inductive OperandForm : List Lexeme → DraftOperand → Prop
  | plain {used : List Lexeme} {e : Expr} (h : Derives .sum used e) : OperandForm used ⟨none, e⟩
  | sigil {used : List Lexeme} {e : Expr} (mode : Mode) (h : Derives .sum used e) :
      OperandForm (.sigil mode :: used) ⟨some mode, e⟩

inductive DraftForm (opcode : Opcode) : List Lexeme → Draft → Prop
  | lone {first second : List Lexeme} {modifier : Option Modifier} {a : DraftOperand}
      (hmodifier : ModifierForm first modifier) (ha : OperandForm second a) :
      DraftForm opcode (first ++ second) ⟨opcode, modifier, a, none⟩
  | pair {first second third : List Lexeme} {modifier : Option Modifier} {a b : DraftOperand}
      (hmodifier : ModifierForm first modifier) (ha : OperandForm second a)
      (hb : OperandForm third b) :
      DraftForm opcode (first ++ (second ++ .comma :: third)) ⟨opcode, modifier, a, some b⟩

/-- What stands after the labels. An `EQU` has to be labelled. -/
inductive BodyForm (labelled : Bool) : List Lexeme → Body → Prop
  | instruction {word : String} {opcode : Opcode} {used : List Lexeme} {draft : Draft}
      (hword : Text.sameName word opcode.mnemonic) (h : DraftForm opcode used draft) :
      BodyForm labelled (.word word :: used) (.instruction draft)
  | origin {word : String} {used : List Lexeme} {e : Expr} (hword : Text.sameName word "ORG")
      (h : Derives .sum used e) : BodyForm labelled (.word word :: used) (.origin e)
  | finish {word : String} (hword : Text.sameName word "END") :
      BodyForm labelled [.word word] (.finish none)
  | finishAt {word : String} {used : List Lexeme} {e : Expr} (hword : Text.sameName word "END")
      (h : Derives .sum used e) : BodyForm labelled (.word word :: used) (.finish (some e))
  | equate {word : String} {used : List Lexeme} {e : Expr} (hword : Text.sameName word "EQU")
      (hlabelled : labelled = true) (h : Derives .sum used e) :
      BodyForm labelled (.word word :: used) (.equate e)

inductive LineForm (labelled : Bool) : List Lexeme → List String → Option Body → Prop
  | labels {used : List Lexeme} {names : List String} (h : LabelsForm used names) :
      LineForm labelled used names none
  | body {used more : List Lexeme} {names : List String} {body : Body} (h : LabelsForm used names)
      (hbody : BodyForm labelled more body) : LineForm labelled (used ++ more) names (some body)

theorem labelsForm_of_readLabels {tokens rest : List Token} {names : List String}
    (h : readLabels tokens = (names, rest)) :
    ∃ taken, tokens = taken ++ rest ∧ LabelsForm (lexemes taken) names := by
  fun_induction readLabels tokens generalizing names with
  | case1 name column tokens hword =>
    cases h
    exact ⟨[], rfl, .nil⟩
  | case2 name column hword column' tokens labels left hread ih =>
    cases h
    obtain ⟨taken, rfl, hform⟩ := ih hread
    have hname := Keyword.ofWord?_eq_none_iff.mp (by simpa using hword)
    exact ⟨_ :: _ :: taken, rfl, .colon hname hform⟩
  | case3 name column hword tokens hcolon labels left hread ih =>
    cases h
    obtain ⟨taken, rfl, hform⟩ := ih hread
    have hname := Keyword.ofWord?_eq_none_iff.mp (by simpa using hword)
    exact ⟨_ :: taken, rfl, .plain hname hform⟩
  | case4 tokens hword =>
    cases h
    exact ⟨[], rfl, .nil⟩

theorem readLabels_plain {name : String} (hname : Keyword.ofWord? name = none)
    {tokens : List Token} (hcolon : (lexemes tokens).head? ≠ some .colon) (column : Nat) :
    readLabels (⟨.word name, column⟩ :: tokens) =
      (name :: (readLabels tokens).1, (readLabels tokens).2) := by
  have hnot : ∀ column more, tokens ≠ ⟨.colon, column⟩ :: more := by
    intro column more he
    exact hcolon (head?_lexemes_eq_some_iff.mpr ⟨column, more, he⟩)
  rw [readLabels, if_neg (by simp [hname])]
  exact hnot

theorem readLabels_colon {name : String} (hname : Keyword.ofWord? name = none)
    (column column' : Nat) (tokens : List Token) :
    readLabels (⟨.word name, column⟩ :: ⟨.colon, column'⟩ :: tokens) =
      (name :: (readLabels tokens).1, (readLabels tokens).2) := by
  rw [readLabels, if_neg (by simp [hname])]

/-- The labels are over: there are no more tokens, or a keyword is next. -/
inductive AtBody : List Token → Prop
  | nil : AtBody []
  | keyword (keyword : Keyword) {word : String} (h : Text.sameName word keyword.text) (column : Nat)
      (more : List Token) : AtBody (⟨.word word, column⟩ :: more)

theorem AtBody.readLabels_eq {tokens : List Token} (h : AtBody tokens) :
    readLabels tokens = ([], tokens) := by
  cases h with
  | nil => rw [readLabels]; exact nofun
  | keyword keyword h column more =>
    unfold readLabels
    exact if_pos (by rw [Keyword.ofWord?_eq_some_iff.mpr h]; rfl)

theorem LabelsForm.head?_append_ne_colon {taken rest : List Token} {names : List String}
    (h : LabelsForm (lexemes taken) names) (hrest : AtBody rest) :
    (lexemes (taken ++ rest)).head? ≠ some .colon := by
  rw [lexemes_append]
  generalize lexemes taken = used at h
  cases h with
  | nil => cases hrest <;> simp [lexemes]
  | plain _ _ | colon _ _ => simp

theorem LabelsForm.readLabels_eq {used : List Lexeme} {names : List String}
    (h : LabelsForm used names) {taken rest : List Token} (htaken : lexemes taken = used)
    (hrest : AtBody rest) : readLabels (taken ++ rest) = (names, rest) := by
  induction h generalizing taken with
  | nil =>
    obtain rfl := List.map_eq_nil_iff.mp htaken
    exact hrest.readLabels_eq
  | plain hname hmore ih =>
    obtain ⟨column, more, rfl, rfl⟩ := lexemes_eq_cons_iff.mp htaken
    rw [List.cons_append, readLabels_plain (Keyword.ofWord?_eq_none_iff.mpr hname)
      (hmore.head?_append_ne_colon hrest), ih rfl]
  | colon hname hmore ih =>
    obtain ⟨column, _, rfl, hcolon⟩ := lexemes_eq_cons_iff.mp htaken
    obtain ⟨column', more, rfl, rfl⟩ := lexemes_eq_cons_iff.mp hcolon
    rw [List.cons_append, List.cons_append,
      readLabels_colon (Keyword.ofWord?_eq_none_iff.mpr hname), ih rfl]

section

variable {stop : Nat} {tokens taken rest : List Token}

theorem modifierForm_of_readModifier {modifier : Option Modifier}
    (h : readModifier stop tokens = .ok (modifier, rest)) :
    ∃ taken, tokens = taken ++ rest ∧ ModifierForm (lexemes taken) modifier := by
  unfold readModifier at h
  split at h
  · next column name column' more =>
    split at h
    · next modifier hname =>
      cases h
      exact ⟨[_, _], rfl, .dot (Modifier.ofName?_eq_some_iff.mp hname)⟩
    · cases h
  · cases h
  · cases h
    exact ⟨[], rfl, .absent⟩

theorem ModifierForm.readModifier_eq {modifier : Option Modifier}
    (h : ModifierForm (lexemes taken) modifier) (hrest : (lexemes rest).head? ≠ some .dot) :
    readModifier stop (taken ++ rest) = .ok (modifier, rest) := by
  generalize hused : lexemes taken = used at h
  cases h with
  | absent =>
    obtain rfl := List.map_eq_nil_iff.mp hused
    unfold readModifier
    split
    · simp_all [lexemes]
    · simp_all [lexemes]
    · rfl
  | @dot name modifier hname =>
    obtain ⟨column, _, rfl, hmore⟩ := lexemes_eq_cons_iff.mp hused
    obtain ⟨column', _, rfl, hnil⟩ := lexemes_eq_cons_iff.mp hmore
    obtain rfl := List.map_eq_nil_iff.mp hnil
    simp only [List.cons_append, List.nil_append, readModifier,
      Modifier.ofName?_eq_some_iff.mpr hname]

theorem operandForm_of_readOperand {operand : DraftOperand}
    (h : readOperand stop tokens = .ok (operand, rest)) :
    ∃ taken, tokens = taken ++ rest ∧ OperandForm (lexemes taken) operand := by
  unfold readOperand at h
  split at h
  · next mode column more =>
    obtain ⟨⟨e, _⟩, hread, he⟩ := map_eq_ok_iff.mp h
    cases he
    obtain ⟨taken, rfl, hderives⟩ := takes_of_readExpr hread
    exact ⟨_ :: taken, rfl, .sigil mode hderives⟩
  · obtain ⟨⟨e, _⟩, hread, he⟩ := map_eq_ok_iff.mp h
    cases he
    obtain ⟨taken, rfl, hderives⟩ := takes_of_readExpr hread
    exact ⟨taken, rfl, .plain hderives⟩

theorem OperandForm.readOperand_eq {operand : DraftOperand}
    (h : OperandForm (lexemes taken) operand) (hrest : ∀ ops, ¬ StartsWith ops rest) :
    readOperand stop (taken ++ rest) = .ok (operand, rest) := by
  generalize hused : lexemes taken = used at h
  cases h with
  | plain h =>
    subst hused
    obtain ⟨first, _, hfirst, hopens, _⟩ := h.exists_eq_cons
    have hhead := h.head?_append rest
    rw [hfirst] at hhead
    unfold readOperand
    split
    · next he =>
      rw [he] at hhead
      cases hhead
      cases hopens
    · exact map_eq_ok_iff.mpr ⟨_, h.readExpr_eq hrest, rfl⟩
  | sigil mode h =>
    obtain ⟨column, more, rfl, rfl⟩ := lexemes_eq_cons_iff.mp hused
    exact map_eq_ok_iff.mpr ⟨_, h.readExpr_eq hrest, rfl⟩

theorem OperandForm.head?_append_ne_dot {operand : DraftOperand}
    (h : OperandForm (lexemes taken) operand) (rest : List Token) :
    (lexemes (taken ++ rest)).head? ≠ some .dot := by
  rw [lexemes_append]
  generalize lexemes taken = used at h
  cases h with
  | plain h =>
    obtain ⟨first, more, rfl, hopens, _⟩ := h.exists_eq_cons
    rintro ⟨⟩
    cases hopens
  | sigil mode h => simp

theorem draftForm_of_readDraft {opcode : Opcode} {draft : Draft}
    (h : readDraft stop opcode tokens = .ok (draft, [])) :
    DraftForm opcode (lexemes tokens) draft := by
  rw [readDraft, bind_eq_ok_iff] at h
  obtain ⟨⟨modifier, _⟩, hmodifier, hafter⟩ := h
  obtain ⟨⟨a, rest⟩, ha, hrest⟩ := bind_eq_ok_iff.mp hafter
  obtain ⟨first, rfl, hfirst⟩ := modifierForm_of_readModifier hmodifier
  obtain ⟨second, rfl, hsecond⟩ := operandForm_of_readOperand ha
  dsimp only at hrest
  split at hrest
  · next column more =>
    obtain ⟨⟨b, _⟩, hb, he⟩ := bind_eq_ok_iff.mp hrest
    cases he
    obtain ⟨third, rfl, hthird⟩ := operandForm_of_readOperand hb
    rw [List.append_nil, lexemes_append, lexemes_append]
    exact .pair hfirst hsecond hthird
  · cases hrest
    rw [List.append_nil, lexemes_append]
    exact .lone hfirst hsecond

theorem DraftForm.readDraft_eq {opcode : Opcode} {draft : Draft}
    (h : DraftForm opcode (lexemes tokens) draft) :
    readDraft stop opcode tokens = .ok (draft, []) := by
  generalize hused : lexemes tokens = used at h
  cases h with
  | lone hmodifier ha =>
    obtain ⟨first, second, rfl, rfl, rfl⟩ := lexemes_eq_append_iff.mp hused
    have hdot := ha.head?_append_ne_dot []
    have hread : readOperand stop (second ++ []) = _ := ha.readOperand_eq not_startsWith_nil
    rw [List.append_nil] at hdot hread
    rw [readDraft, bind_eq_ok_iff]
    refine ⟨_, hmodifier.readModifier_eq hdot, bind_eq_ok_iff.mpr ⟨_, hread, rfl⟩⟩
  | pair hmodifier ha hb =>
    obtain ⟨first, _, rfl, rfl, hmore⟩ := lexemes_eq_append_iff.mp hused
    obtain ⟨second, _, rfl, rfl, hcomma⟩ := lexemes_eq_append_iff.mp hmore
    obtain ⟨column, third, rfl, rfl⟩ := lexemes_eq_cons_iff.mp hcomma
    have hstops : ∀ ops, ¬ StartsWith ops (⟨.comma, column⟩ :: third) :=
      not_startsWith_of_ne (by simp) column third
    have hread : readOperand stop (third ++ []) = _ := hb.readOperand_eq not_startsWith_nil
    rw [List.append_nil] at hread
    rw [readDraft, bind_eq_ok_iff]
    refine ⟨_, hmodifier.readModifier_eq (ha.head?_append_ne_dot _), ?_⟩
    refine bind_eq_ok_iff.mpr ⟨_, ha.readOperand_eq hstops, ?_⟩
    exact bind_eq_ok_iff.mpr ⟨_, hread, rfl⟩

theorem readDraft_eq_ok_iff {opcode : Opcode} {draft : Draft} :
    readDraft stop opcode tokens = .ok (draft, []) ↔ DraftForm opcode (lexemes tokens) draft :=
  ⟨draftForm_of_readDraft, DraftForm.readDraft_eq⟩

theorem readExpr_eq_ok_iff {e : Expr} :
    readExpr stop tokens = .ok (e, []) ↔ Derives .sum (lexemes tokens) e := by
  constructor
  · intro h
    obtain ⟨taken, rfl, hderives⟩ := takes_of_readExpr h
    rwa [List.append_nil]
  · intro h
    have hread : readExpr stop (tokens ++ []) = _ := h.readExpr_eq not_startsWith_nil
    rwa [List.append_nil] at hread

theorem expectEnd_eq_ok_iff {α : Type} {x : Except Refusal (α × List Token)} {a : α} :
    (x >>= expectEnd) = .ok a ↔ x = .ok (a, []) := by
  rw [bind_eq_ok_iff]
  constructor
  · rintro ⟨⟨b, _ | ⟨token, more⟩⟩, hx, h⟩
    · cases h
      exact hx
    · cases h
  · intro hx
    exact ⟨(a, []), hx, rfl⟩

theorem readAll_eq_ok_iff {α β : Type} {x : Except Refusal (α × List Token)} {f : α → β} {b : β} :
    (do let a ← expectEnd (← x); return f a) = .ok b ↔ ∃ a, x = .ok (a, []) ∧ f a = b := by
  simp only [← expectEnd_eq_ok_iff]
  rw [← map_eq_ok_iff]
  cases x <;> rfl

theorem bodyForm_of_readBody {labelled : Bool} {result : Option Body}
    (h : readBody stop labelled tokens = .ok result) :
    tokens = [] ∧ result = none ∨
      ∃ body, BodyForm labelled (lexemes tokens) body ∧ result = some body := by
  unfold readBody at h
  split at h
  · cases h
    exact .inl ⟨rfl, rfl⟩
  · next word column more =>
    right
    split at h
    · cases h
    · next opcode hword =>
      obtain ⟨draft, hdraft, rfl⟩ := readAll_eq_ok_iff.mp h
      rw [Keyword.ofWord?_eq_some_iff] at hword
      exact ⟨_, .instruction hword (readDraft_eq_ok_iff.mp hdraft), rfl⟩
    · next hword =>
      obtain ⟨e, hexpr, rfl⟩ := readAll_eq_ok_iff.mp h
      rw [Keyword.ofWord?_eq_some_iff] at hword
      exact ⟨_, .origin hword (readExpr_eq_ok_iff.mp hexpr), rfl⟩
    · next hword =>
      rw [Keyword.ofWord?_eq_some_iff] at hword
      cases more with
      | nil =>
        cases h
        exact ⟨_, .finish hword, rfl⟩
      | cons token more =>
        obtain ⟨e, hexpr, rfl⟩ := readAll_eq_ok_iff.mp h
        exact ⟨_, .finishAt hword (readExpr_eq_ok_iff.mp hexpr), rfl⟩
    · next hword =>
      rw [Keyword.ofWord?_eq_some_iff] at hword
      cases labelled with
      | false => cases h
      | true =>
        obtain ⟨e, hexpr, rfl⟩ := readAll_eq_ok_iff.mp h
        exact ⟨_, .equate hword rfl (readExpr_eq_ok_iff.mp hexpr), rfl⟩
  · cases h

theorem BodyForm.readBody_eq {labelled : Bool} {body : Body}
    (h : BodyForm labelled (lexemes tokens) body) :
    readBody stop labelled tokens = .ok (some body) := by
  generalize hused : lexemes tokens = used at h
  cases h with
  | @instruction word opcode used draft hword h =>
    obtain ⟨column, more, rfl, rfl⟩ := lexemes_eq_cons_iff.mp hused
    have hkeyword : Keyword.ofWord? word = some (.opcode opcode) :=
      Keyword.ofWord?_eq_some_iff.mpr hword
    simp only [readBody, hkeyword]
    exact readAll_eq_ok_iff.mpr ⟨_, readDraft_eq_ok_iff.mpr h, rfl⟩
  | @origin word used e hword h =>
    obtain ⟨column, more, rfl, rfl⟩ := lexemes_eq_cons_iff.mp hused
    have hkeyword : Keyword.ofWord? word = some .origin := Keyword.ofWord?_eq_some_iff.mpr hword
    simp only [readBody, hkeyword]
    exact readAll_eq_ok_iff.mpr ⟨_, readExpr_eq_ok_iff.mpr h, rfl⟩
  | @finish word hword =>
    obtain ⟨column, more, rfl, hnil⟩ := lexemes_eq_cons_iff.mp hused
    obtain rfl := List.map_eq_nil_iff.mp hnil
    have hkeyword : Keyword.ofWord? word = some .finish := Keyword.ofWord?_eq_some_iff.mpr hword
    simp only [readBody, hkeyword]
    rfl
  | @finishAt word used e hword h =>
    obtain ⟨column, more, rfl, rfl⟩ := lexemes_eq_cons_iff.mp hused
    have hkeyword : Keyword.ofWord? word = some .finish := Keyword.ofWord?_eq_some_iff.mpr hword
    have hmore : ¬ more.isEmpty = true := by
      obtain ⟨first, _, hfirst, _⟩ := h.exists_eq_cons
      obtain ⟨_, _, rfl, _⟩ := lexemes_eq_cons_iff.mp hfirst
      exact nofun
    simp only [readBody, hkeyword, if_neg hmore]
    exact readAll_eq_ok_iff.mpr ⟨_, readExpr_eq_ok_iff.mpr h, rfl⟩
  | @equate word used e hword hlabelled h =>
    obtain ⟨column, more, rfl, rfl⟩ := lexemes_eq_cons_iff.mp hused
    have hkeyword : Keyword.ofWord? word = some .equate := Keyword.ofWord?_eq_some_iff.mpr hword
    subst hlabelled
    simp only [readBody, hkeyword]
    exact readAll_eq_ok_iff.mpr ⟨_, readExpr_eq_ok_iff.mpr h, rfl⟩

theorem BodyForm.atBody {labelled : Bool} {body : Body}
    (h : BodyForm labelled (lexemes tokens) body) : AtBody tokens := by
  generalize hused : lexemes tokens = used at h
  cases h with
  | @instruction word opcode used draft hword _ =>
    obtain ⟨column, more, rfl, _⟩ := lexemes_eq_cons_iff.mp hused
    exact .keyword (.opcode opcode) hword column more
  | origin hword _ =>
    obtain ⟨column, more, rfl, _⟩ := lexemes_eq_cons_iff.mp hused
    exact .keyword .origin hword column more
  | finish hword | finishAt hword _ =>
    obtain ⟨column, more, rfl, _⟩ := lexemes_eq_cons_iff.mp hused
    exact .keyword .finish hword column more
  | equate hword _ _ =>
    obtain ⟨column, more, rfl, _⟩ := lexemes_eq_cons_iff.mp hused
    exact .keyword .equate hword column more

/-- Labels and body are read off tokens just as the grammar has them. -/
theorem readLine_eq_ok_iff {labelled : Bool} {names : List String} {body : Option Body} :
    (∃ rest, readLabels tokens = (names, rest) ∧ readBody stop labelled rest = .ok body) ↔
      LineForm labelled (lexemes tokens) names body := by
  constructor
  · rintro ⟨rest, hread, hbody⟩
    obtain ⟨taken, rfl, hlabels⟩ := labelsForm_of_readLabels hread
    obtain ⟨rfl, rfl⟩ | ⟨body, hform, rfl⟩ := bodyForm_of_readBody hbody
    · rw [List.append_nil]
      exact .labels hlabels
    · rw [lexemes_append]
      exact .body hlabels hform
  · intro h
    generalize hused : lexemes tokens = used at h
    cases h with
    | labels h =>
      have hlabels := h.readLabels_eq hused .nil
      rw [List.append_nil] at hlabels
      exact ⟨[], hlabels, by rw [readBody]⟩
    | body h hbody =>
      obtain ⟨taken, rest, rfl, rfl, rfl⟩ := lexemes_eq_append_iff.mp hused
      exact ⟨rest, h.readLabels_eq rfl hbody.atBody, hbody.readBody_eq⟩

theorem Line.read_eq_ok_iff {text : List Char} (hscan : scan 1 text = .ok tokens)
    (hcomment : comment? text = none) (hcode : tokens ≠ []) {pending : Bool} {names : List String}
    {body : Option Body} :
    Line.read pending text = .ok (some ⟨names, body⟩) ↔
      LineForm (pending || !names.isEmpty) (lexemes tokens) names body := by
  have hread : Line.read pending text =
      (readBody (endColumn text) (pending || !(readLabels tokens).1.isEmpty)
        (readLabels tokens).2).map fun body => some ⟨(readLabels tokens).1, body⟩ := by
    rw [Line.read, if_neg (by simp [hcomment]), hscan]
    cases tokens with
    | nil => exact absurd rfl hcode
    | cons token more => rfl
  rw [hread, map_eq_ok_iff, ← readLine_eq_ok_iff]
  constructor
  · rintro ⟨body, hbody, he⟩
    cases he
    exact ⟨_, rfl, hbody⟩
  · rintro ⟨rest, hlabels, hbody⟩
    rw [hlabels]
    exact ⟨body, hbody, rfl⟩

theorem Line.exists_lineForm_of_read {pending : Bool} {text : List Char} {names : List String}
    {body : Option Body} (h : Line.read pending text = .ok (some ⟨names, body⟩)) :
    ∃ tokens, scan 1 text = .ok tokens ∧
      LineForm (pending || !names.isEmpty) (lexemes tokens) names body := by
  cases hcomment : comment? text with
  | some comment =>
    rw [Line.read, hcomment] at h
    cases h
  | none =>
    cases hscan : scan 1 text with
    | error refusal =>
      rw [Line.read, hcomment, hscan] at h
      cases h
    | ok tokens =>
      have hcode : tokens ≠ [] := by
        rintro rfl
        rw [Line.read, hcomment, hscan] at h
        cases h
      exact ⟨tokens, rfl, (Line.read_eq_ok_iff hscan hcomment hcode).mp h⟩

theorem readInstruction_eq_ok_iff {text : List Char} {draft : Draft} :
    readInstruction text = .ok draft ↔
      ∃ tokens, scan 1 text = .ok tokens ∧
        BodyForm false (lexemes tokens) (.instruction draft) := by
  rw [readInstruction, bind_eq_ok_iff]
  apply exists_congr
  intro tokens
  apply and_congr_right
  intro _
  constructor
  · intro h
    split at h
    · next word column more =>
      split at h
      · next opcode hword =>
        rw [Keyword.ofWord?_eq_some_iff] at hword
        exact .instruction hword (readDraft_eq_ok_iff.mp (expectEnd_eq_ok_iff.mp h))
      · cases h
    · cases h
  · intro h
    generalize hused : lexemes tokens = used at h
    cases h with
    | @instruction word opcode used _ hword h =>
      obtain ⟨column, more, rfl, rfl⟩ := lexemes_eq_cons_iff.mp hused
      have hkeyword : Keyword.ofWord? word = some (.opcode opcode) :=
        Keyword.ofWord?_eq_some_iff.mpr hword
      simp only [hkeyword]
      exact expectEnd_eq_ok_iff.mpr (readDraft_eq_ok_iff.mpr h)

end

/-- Of a line that can be cut into tokens, labels and body are read exactly if the grammar derives
them from all of its lexemes. -/
theorem readLine_iff_lineForm {text : List Char} {tokens : List Token}
    (hscan : scan 1 text = .ok tokens) :
    (∀ labelled names body,
      (∃ rest, readLabels tokens = (names, rest) ∧
        readBody (endColumn text) labelled rest = .ok body) ↔
      LineForm labelled (lexemes tokens) names body) ∧
    (comment? text = none → tokens ≠ [] → ∀ pending names body,
      Line.read pending text = .ok (some ⟨names, body⟩) ↔
        LineForm (pending || !names.isEmpty) (lexemes tokens) names body) :=
  ⟨fun _ _ _ => readLine_eq_ok_iff,
    fun hcomment hcode _ _ _ => Line.read_eq_ok_iff hscan hcomment hcode⟩

def signedLine : List Char := "far: away equ -(x - 2) % -9223372036854775808 ; !".toList

def signedTokens : List Token :=
  [⟨.word "far", 1⟩, ⟨.colon, 4⟩, ⟨.word "away", 6⟩, ⟨.word "equ", 11⟩, ⟨.operator .sub, 15⟩,
    ⟨.opening, 16⟩, ⟨.word "x", 17⟩, ⟨.operator .sub, 19⟩, ⟨.number 2, 21⟩, ⟨.closing, 22⟩,
    ⟨.operator .mod, 24⟩, ⟨.operator .sub, 26⟩, ⟨.number (2 ^ 63), 27⟩]

def signedExpr : Expr :=
  .binary .mod (.binary .sub (.number 0) (.binary .sub (.symbol "x") (.number 2)))
    (.number Int64.minValue)

theorem scan_signedLine : scan 1 signedLine = .ok signedTokens := by decide +kernel

theorem comment?_signedLine : comment? signedLine = none := by decide +kernel

theorem lineForm_signedLine :
    LineForm true (lexemes signedTokens) ["far", "away"] (some (.equate signedExpr)) := by
  have hx : Derives .sum [.word "x"] (.symbol "x") := .term (.factor (.primary (.word "x")))
  have htwo : Derives .product [.number 2] (.number 2) := .factor (.primary (.literal (by decide)))
  have hinner := Derives.sum (.tail _ (.head _) : Operator.sub ∈ [.add, .sub]) hx htwo
  have hminus := Derives.minus (.primary (.brackets hinner)) (by simp)
  have hmod : Operator.mod ∈ [.mul, .div, .mod] := by decide
  have hrest := Derives.product hmod (.factor hminus) .least
  have haway : LabelsForm [.word "away"] ["away"] :=
    .plain (Keyword.ofWord?_eq_none_iff.mp (by decide +kernel)) .nil
  have hlabels : LabelsForm [.word "far", .colon, .word "away"] ["far", "away"] :=
    .colon (Keyword.ofWord?_eq_none_iff.mp (by decide +kernel)) haway
  have hequ : Text.sameName "equ" "EQU" = true := by decide +kernel
  exact .body hlabels (.equate hequ rfl (.term hrest))

theorem readLine_iff_lineForm_signedLine :
    scan 1 signedLine = .ok signedTokens ∧
      Line.read false signedLine = .ok (some ⟨["far", "away"], some (.equate signedExpr)⟩) := by
  have hcode : signedTokens ≠ [] := List.cons_ne_nil _ _
  have hreads := (readLine_iff_lineForm scan_signedLine).2 comment?_signedLine hcode
  exact ⟨scan_signedLine, (hreads false _ _).mpr lineForm_signedLine⟩

end Source

end CoreWar
