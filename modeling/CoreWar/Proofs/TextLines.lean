import CoreWar.Text.Blank
import CoreWar.Text.Lines

namespace CoreWar.Text

def withoutReturn (text : List Char) : List Char :=
  if text.getLast? = some '\r' then text.dropLast else text

theorem withoutReturn_cons {cs : List Char} (h : cs ≠ []) (c : Char) :
    withoutReturn (c :: cs) = c :: withoutReturn cs := by
  obtain ⟨d, ds, rfl⟩ := List.exists_cons_of_ne_nil h
  rw [withoutReturn, List.getLast?_cons_cons, List.dropLast_cons_of_ne_nil h, withoutReturn]
  split <;> rfl

/-- The rest of a line is cut as it is by itself, unless it is the rest of a line end. -/
theorem lines_cons {c : Char} {cs : List Char} (hc : c ≠ '\n')
    (hreturn : c = '\r' → cs.head? ≠ some '\n') :
    lines (c :: cs) = match lines cs with
      | [] => [[c]]
      | first :: rest => (c :: first) :: rest := by
  apply lines.eq_4 _ _ hc
  rintro _ hr rfl
  exact hreturn hr rfl

theorem lines_of_not_mem {text : List Char} (hne : text ≠ []) (h : '\n' ∉ text) :
    lines text = [text] := by
  induction text with
  | nil => exact absurd rfl hne
  | cons c cs ih =>
    have hc : c ≠ '\n' := Ne.symm (List.ne_of_not_mem_cons h)
    have hcs : '\n' ∉ cs := List.not_mem_of_not_mem_cons h
    have hreturn : c = '\r' → cs.head? ≠ some '\n' := fun _ hm => hcs (List.mem_of_head? hm)
    rw [lines_cons hc hreturn]
    by_cases hnil : cs = []
    · subst hnil
      rfl
    · rw [ih hnil hcs]

theorem lines_append_newline {text : List Char} (h : '\n' ∉ text) (rest : List Char) :
    lines (text ++ '\n' :: rest) = withoutReturn text :: lines rest := by
  induction text with
  | nil => rfl
  | cons c cs ih =>
    have hc : c ≠ '\n' := Ne.symm (List.ne_of_not_mem_cons h)
    have hcs : '\n' ∉ cs := List.not_mem_of_not_mem_cons h
    by_cases hend : c = '\r' ∧ cs = []
    · obtain ⟨rfl, rfl⟩ := hend
      rfl
    · have hreturn : c = '\r' → (cs ++ '\n' :: rest).head? ≠ some '\n' := by
        intro hr
        cases cs with
        | nil => exact absurd ⟨hr, rfl⟩ hend
        | cons d cs => exact fun hd => hcs (List.mem_of_head? hd)
      rw [List.cons_append, lines_cons hc hreturn, ih hcs]
      by_cases hnil : cs = []
      · subst hnil
        have hr : c ≠ '\r' := fun hr => hend ⟨hr, rfl⟩
        simp [withoutReturn, hr]
      · rw [withoutReturn_cons hnil]

theorem not_mem_of_mem_lines {text line : List Char} (h : line ∈ lines text) : '\n' ∉ line := by
  fun_induction lines text generalizing line with
  | case1 => cases h
  | case2 cs ih | case3 cs ih =>
    obtain rfl | h := List.mem_cons.mp h
    · exact List.not_mem_nil
    · exact ih h
  | case4 c cs hc _ hlines =>
    obtain rfl := List.mem_singleton.mp h
    exact List.not_mem_cons_of_ne_of_not_mem (Ne.symm hc) List.not_mem_nil
  | case5 c cs hc _ first rest hlines ih =>
    rw [hlines] at ih
    obtain rfl | h := List.mem_cons.mp h
    · exact List.not_mem_cons_of_ne_of_not_mem (Ne.symm hc) (ih List.mem_cons_self)
    · exact ih (List.mem_cons_of_mem _ h)

/-- A text that ends where a line does. -/
inductive Ended : List Char → Prop
  | nil : Ended []
  | line {text rest : List Char} (h : '\n' ∉ text) (hrest : Ended rest) :
      Ended (text ++ '\n' :: rest)

theorem ended_of_getLast? {text : List Char} (h : ∀ c ∈ text.getLast?, c = '\n') : Ended text := by
  cases hlast : text.getLast? with
  | none =>
    rw [List.getLast?_eq_none_iff.mp hlast]
    exact .nil
  | some last =>
    obtain rfl : last = '\n' := h last hlast
    obtain ⟨first, rest, hsplit, hfirst⟩ := List.eq_append_cons_of_mem (List.mem_of_getLast? hlast)
    have hrest : ∀ c ∈ rest.getLast?, c = '\n' := by
      intro c hc
      apply h c
      rw [hsplit, List.getLast?_append, List.getLast?_cons, Option.mem_def.mp hc]
      rfl
    have hlt : rest.length < text.length := by
      rw [hsplit, List.length_append, List.length_cons]
      omega
    rw [hsplit]
    exact .line hfirst (ended_of_getLast? hrest)
termination_by text.length

theorem Ended.lines_append {text : List Char} (h : Ended text) (more : List Char) :
    lines (text ++ more) = lines text ++ lines more := by
  induction h with
  | nil => rfl
  | line htext _ ih =>
    rw [List.append_assoc, List.cons_append, lines_append_newline htext, lines_append_newline htext,
      ih, List.cons_append]

theorem Ended.length_lines {text : List Char} (h : Ended text) :
    (lines text).length = text.count '\n' := by
  induction h with
  | nil => rfl
  | line htext _ ih =>
    rw [lines_append_newline htext, List.length_cons, ih, List.count_append, List.count_cons_self,
      List.count_eq_zero.mpr htext, Nat.zero_add]

def unlines (texts : List (List Char)) : List Char := texts.flatMap (· ++ ['\n'])

/-- A text that can be a line: it has no line feed and no carriage return at its end. -/
def IsLine (text : List Char) : Prop := '\n' ∉ text ∧ text.getLast? ≠ some '\r'

theorem lines_unlines {texts : List (List Char)} (h : ∀ text ∈ texts, IsLine text) :
    lines (unlines texts) = texts := by
  induction texts with
  | nil => rfl
  | cons text texts ih =>
    obtain ⟨⟨hfeed, hreturn⟩, htexts⟩ := List.forall_mem_cons.mp h
    have hunlines : unlines (text :: texts) = text ++ '\n' :: unlines texts := by
      rw [unlines, List.flatMap_cons, List.append_assoc]
      rfl
    rw [hunlines, lines_append_newline hfeed, ih htexts, withoutReturn, if_neg hreturn]

section

variable {text blanks : List Char}

theorem trimEnd_isPrefix (text : List Char) : trimEnd text <+: text := by
  rw [← List.reverse_suffix, trimEnd, List.reverse_reverse]
  exact List.dropWhile_suffix _

theorem trimStart_append (hblanks : ∀ c ∈ blanks, isBlank c)
    (hhead : ∀ c ∈ text.head?, isBlank c = false) : trimStart (blanks ++ text) = text := by
  rw [trimStart, List.dropWhile_append_of_pos hblanks]
  cases text with
  | nil => rfl
  | cons c cs => exact List.dropWhile_cons_of_neg (by rw [hhead c rfl]; decide)

theorem trimEnd_append (hblanks : ∀ c ∈ blanks, isBlank c)
    (hlast : ∀ c ∈ text.getLast?, isBlank c = false) : trimEnd (text ++ blanks) = text := by
  have hreverse : trimStart (blanks.reverse ++ text.reverse) = text.reverse := by
    refine trimStart_append (fun c hc => hblanks c (List.mem_reverse.mp hc)) ?_
    rwa [List.head?_reverse]
  rw [trimEnd, List.reverse_append, ← trimStart, hreverse, List.reverse_reverse]

theorem trim_append_append {before after : List Char} (hbefore : ∀ c ∈ before, isBlank c)
    (hafter : ∀ c ∈ after, isBlank c) (hne : text ≠ [])
    (hhead : ∀ c ∈ text.head?, isBlank c = false) (hlast : ∀ c ∈ text.getLast?, isBlank c = false) :
    trim (before ++ (text ++ after)) = text := by
  have hstart : ∀ c ∈ (text ++ after).head?, isBlank c = false := by
    obtain ⟨d, ds, rfl⟩ := List.exists_cons_of_ne_nil hne
    exact hhead
  rw [trim, trimStart_append hbefore hstart, trimEnd_append hafter hlast]

theorem not_of_head?_dropWhile {p : Char → Bool} {c : Char}
    (h : c ∈ (text.dropWhile p).head?) : p c = false := by
  have hhead := List.head?_dropWhile_not p text
  rw [Option.mem_def.mp h] at hhead
  exact hhead

structure Tidy (text : List Char) : Prop where
  newline : '\n' ∉ text
  head : ∀ c ∈ text.head?, isBlank c = false
  last : ∀ c ∈ text.getLast?, isBlank c = false

theorem tidy_trim (h : '\n' ∉ text) : Tidy (trim text) := by
  have hinitial : trim text <+: trimStart text := trimEnd_isPrefix _
  have hsub : ∀ c ∈ trim text, c ∈ text := fun c hc =>
    (List.dropWhile_suffix isBlank).subset (hinitial.subset hc)
  refine ⟨fun hm => h (hsub _ hm), fun c hc => ?_, fun c hc => ?_⟩
  · obtain ⟨more, hmore⟩ := hinitial
    have hstart : c ∈ (trimStart text).head? := by
      rw [← hmore, List.head?_append, Option.mem_def.mp hc]
      rfl
    exact not_of_head?_dropWhile hstart
  · rw [trim, trimEnd, List.getLast?_reverse] at hc
    exact not_of_head?_dropWhile hc

theorem Tidy.isLine (h : Tidy text) : IsLine text := by
  refine ⟨h.newline, fun hreturn => ?_⟩
  have hblank := h.last '\r' hreturn
  revert hblank
  decide

end

def joinLines (first : List Char) (rest : List (List Char)) : List Char :=
  first ++ rest.flatMap ('\n' :: ·)

variable {first : List Char} {rest : List (List Char)}

theorem joinLines_cons (first second : List Char) (rest : List (List Char)) :
    joinLines first (second :: rest) = first ++ '\n' :: joinLines second rest := rfl

theorem lines_joinLines_cons {second : List Char} (h : IsLine first) :
    lines (joinLines first (second :: rest)) = first :: lines (joinLines second rest) := by
  rw [joinLines_cons, lines_append_newline h.1, withoutReturn, if_neg h.2]

theorem joinLines_nil (first : List Char) : joinLines first [] = first := List.append_nil first

theorem mem_of_mem_lines_joinLines (h : ∀ text ∈ first :: rest, IsLine text) {text : List Char}
    (hm : text ∈ lines (joinLines first rest)) : text ∈ first :: rest := by
  induction rest generalizing first with
  | nil =>
    rw [joinLines_nil] at hm
    by_cases hfirst : first = []
    · rw [hfirst] at hm
      cases hm
    · rwa [lines_of_not_mem hfirst (h first List.mem_cons_self).1] at hm
  | cons second rest ih =>
    obtain ⟨hfirst, hrest⟩ := List.forall_mem_cons.mp h
    rw [lines_joinLines_cons hfirst] at hm
    obtain rfl | hm := List.mem_cons.mp hm
    · exact List.mem_cons_self
    · exact List.mem_cons_of_mem _ (ih hrest hm)

theorem lines_joinLines (h : ∀ text ∈ first :: rest, IsLine text)
    (hne : joinLines first rest ≠ []) (hlast : (joinLines first rest).getLast? ≠ some '\n') :
    lines (joinLines first rest) = first :: rest := by
  induction rest generalizing first with
  | nil =>
    rw [joinLines_nil] at hne ⊢
    exact lines_of_not_mem hne (h first List.mem_cons_self).1
  | cons second rest ih =>
    obtain ⟨hfirst, hrest⟩ := List.forall_mem_cons.mp h
    have hmore : joinLines second rest ≠ [] := by
      intro hnil
      rw [joinLines_cons, hnil, List.getLast?_concat] at hlast
      exact hlast rfl
    rw [joinLines_cons, List.append_cons, List.getLast?_append,
      List.getLast?_eq_some_getLast hmore, Option.some_or,
      ← List.getLast?_eq_some_getLast hmore] at hlast
    rw [lines_joinLines_cons hfirst, ih hrest hmore hlast]

end CoreWar.Text
