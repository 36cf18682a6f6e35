import CoreWar.Proofs.Documents
import CoreWar.Proofs.Scanning

namespace CoreWar

namespace Metadata

def IsEntry (key : Key) (value : String) : Prop :=
  ∃ first rest, value.toList = Text.joinLines first rest ∧
    (∀ text ∈ first :: rest, Text.Tidy text) ∧ (rest = [] ∨ key = .strategy)

/-- Metadata such as comments give. -/
def IsTidy (metadata : Metadata) : Prop :=
  ∀ key value, metadata.get key = some value → IsEntry key value

section

variable {metadata : Metadata} {key : Key} {text : List Char}

theorem isEntry_ofList (h : Text.Tidy text) (key : Key) : IsEntry key (String.ofList text) := by
  refine ⟨text, [], ?_, ?_, .inl rfl⟩
  · rw [String.toList_ofList, Text.joinLines_nil]
  · simpa using h

theorem IsEntry.append {value : String} (h : IsEntry .strategy value) (htext : Text.Tidy text) :
    IsEntry .strategy (value ++ "\n" ++ String.ofList text) := by
  obtain ⟨first, rest, hvalue, hlines, _⟩ := h
  refine ⟨first, rest ++ [text], ?_, ?_, .inr rfl⟩
  · simp [hvalue, Text.joinLines]
  · simpa [or_imp, forall_and, htext] using hlines

theorem get_put_of_ne {other : Key} (h : other ≠ key) (metadata : Metadata) (value : String) :
    (metadata.put key value).get other = metadata.get other := by
  cases key with
  | name | author | version | date => cases other <;> first | rfl | exact absurd rfl h
  | strategy =>
    rw [put]
    cases metadata.strategy <;> cases other <;> first | rfl | exact absurd rfl h

theorem IsTidy.put (h : metadata.IsTidy) (htext : Text.Tidy text) (key : Key) :
    (metadata.put key (String.ofList text)).IsTidy := by
  intro other value hvalue
  by_cases hother : other = key
  · subst hother
    cases other with
    | name | author | version | date =>
      cases hvalue
      exact isEntry_ofList htext _
    | strategy =>
      rw [Metadata.put] at hvalue
      cases hstrategy : metadata.strategy with
      | none =>
        rw [hstrategy] at hvalue
        cases hvalue
        exact isEntry_ofList htext _
      | some before =>
        rw [hstrategy] at hvalue
        cases hvalue
        exact (h .strategy before hstrategy).append htext
  · rw [get_put_of_ne hother] at hvalue
    exact h other value hvalue

theorem IsTidy.addComment (h : metadata.IsTidy) {comment : List Char} (hcomment : '\n' ∉ comment) :
    (metadata.addComment comment).IsTidy := by
  have htrim := Text.tidy_trim hcomment
  have hvalue : '\n' ∉ (Text.trim comment).dropWhile (!Text.isBlank ·) := fun hm =>
    htrim.newline ((List.dropWhile_suffix _).subset hm)
  rw [Metadata.addComment, set?]
  cases Key.ofText? _ with
  | none => exact h
  | some key =>
    rw [Option.map_some, Option.getD_some, String.toList_ofList]
    exact h.put (Text.tidy_trim hvalue) key

theorem IsTidy.foldl_addComment {comments : List (List Char)} (h : metadata.IsTidy)
    (hcomments : ∀ comment ∈ comments, '\n' ∉ comment) :
    (comments.foldl Metadata.addComment metadata).IsTidy := by
  induction comments generalizing metadata with
  | nil => exact h
  | cons comment comments ih =>
    obtain ⟨hcomment, hrest⟩ := List.forall_mem_cons.mp hcomments
    exact ih (h.addComment hcomment) hrest

end

theorem Key.ofText?_text (key : Key) : ofText? key.text = some key := by
  cases key <;> decide +kernel

theorem Key.not_isBlank_text (key : Key) : ∀ c ∈ key.text.toList, Text.isBlank c = false := by
  have hall : key.text.toList.all (!Text.isBlank ·) := by cases key <;> decide +kernel
  intro c hc
  simpa using List.all_eq_true.mp hall c hc

theorem Key.toList_text_ne_nil (key : Key) : key.text.toList ≠ [] := by cases key <;> decide

def Key.comment (key : Key) (text : List Char) : List Char := key.text.toList ++ ' ' :: text

theorem Key.getLast?_comment (key : Key) (text : List Char) :
    (key.comment text).getLast? = some (text.getLast?.getD ' ') := by
  rw [comment, List.getLast?_append, List.getLast?_cons, Option.some_or]

theorem Key.trim_comment (key : Key) {text : List Char} (h : Text.Tidy text) :
    ∃ value, Text.trim (key.comment text) = key.text.toList ++ value ∧
      (∀ c ∈ value.head?, Text.isBlank c) ∧ Text.trim value = text := by
  have hkey := key.not_isBlank_text
  have hne := key.toList_text_ne_nil
  have hblank : ∀ c ∈ [' '], Text.isBlank c := by
    intro c hc
    rw [List.mem_singleton.mp hc]
    decide
  by_cases htext : text = []
  · subst htext
    have htrim : Text.trim ([] ++ (key.text.toList ++ [' '])) = key.text.toList :=
      Text.trim_append_append nofun hblank hne (fun c hc => hkey c (List.mem_of_head? hc))
        fun c hc => hkey c (List.mem_of_getLast? hc)
    exact ⟨[], htrim.trans (List.append_nil _).symm, nofun, rfl⟩
  · have hhead : ∀ c ∈ (key.comment text).head?, Text.isBlank c = false := by
      obtain ⟨d, ds, hds⟩ := List.exists_cons_of_ne_nil hne
      rw [comment, hds]
      rintro _ ⟨⟩
      exact hkey d (hds ▸ List.mem_cons_self)
    have hlast : ∀ c ∈ (key.comment text).getLast?, Text.isBlank c = false := by
      have hend := List.getLast?_eq_some_getLast htext
      rw [getLast?_comment, hend]
      rintro _ ⟨⟩
      exact h.last _ hend
    have hwhole : Text.trim ([] ++ (key.comment text ++ [])) = key.comment text :=
      Text.trim_append_append nofun nofun (by simp [comment]) hhead hlast
    have hvalue : Text.trim ([' '] ++ (text ++ [])) = text :=
      Text.trim_append_append hblank nofun htext h.head h.last
    rw [List.nil_append, List.append_nil] at hwhole
    rw [List.append_nil] at hvalue
    refine ⟨' ' :: text, hwhole, ?_, hvalue⟩
    rintro _ ⟨⟩
    decide

theorem addComment_comment (metadata : Metadata) (key : Key) {text : List Char}
    (h : Text.Tidy text) :
    metadata.addComment (key.comment text) = metadata.put key (String.ofList text) := by
  have hkey : ∀ c ∈ key.text.toList, !Text.isBlank c := fun c hc => by
    rw [key.not_isBlank_text c hc]
    rfl
  obtain ⟨value, htrim, hhead, hvalue⟩ := key.trim_comment h
  have hstops : ∀ c ∈ value.head?, (!Text.isBlank c) = false := by
    intro c hc
    rw [hhead c hc]
    rfl
  obtain ⟨htake, hdrop⟩ := Source.span_append hkey hstops
  rw [addComment, htrim, htake, hdrop, String.ofList_toList, set?, Key.ofText?_text,
    String.toList_ofList, hvalue]
  rfl

theorem foldl_comment_strategy (metadata : Metadata) (value : String) {texts : List (List Char)}
    (h : ∀ text ∈ texts, Text.Tidy text) :
    (texts.map (Key.comment .strategy)).foldl addComment { metadata with strategy := some value } =
      { metadata with
        strategy := some (value ++ String.ofList (texts.flatMap ('\n' :: ·))) } := by
  induction texts generalizing value with
  | nil => simp
  | cons text texts ih =>
    obtain ⟨htext, htexts⟩ := List.forall_mem_cons.mp h
    have hput : Metadata.put { metadata with strategy := some value } .strategy
        (String.ofList text) =
          { metadata with strategy := some (value ++ "\n" ++ String.ofList text) } := rfl
    have htext' : value ++ "\n" ++ String.ofList text ++
        String.ofList (texts.flatMap ('\n' :: ·)) =
          value ++ String.ofList ((text :: texts).flatMap ('\n' :: ·)) := by
      rw [← String.toList_inj]
      simp
    rw [List.map_cons, List.foldl_cons, addComment_comment _ _ htext, hput, ih _ htexts, htext']

theorem foldl_comment {key : Key} {first : List Char} {rest : List (List Char)} {value : String}
    (hvalue : value.toList = Text.joinLines first rest)
    (hlines : ∀ text ∈ first :: rest, Text.Tidy text) (hkey : rest = [] ∨ key = .strategy) :
    ((first :: rest).map key.comment).foldl addComment {} = put {} key value := by
  obtain ⟨hfirst, hrest⟩ := List.forall_mem_cons.mp hlines
  rw [List.map_cons, List.foldl_cons, addComment_comment _ _ hfirst]
  obtain rfl | rfl := hkey
  · rw [Text.joinLines_nil] at hvalue
    rw [← hvalue, String.ofList_toList]
    rfl
  · have hfold := foldl_comment_strategy {} (String.ofList first) hrest
    rw [← String.ofList_append, ← Text.joinLines, ← hvalue, String.ofList_toList] at hfold
    exact hfold

def entryComments (metadata : Metadata) (key : Key) : List (List Char) :=
  match metadata.get key with
  | some value => (Text.lines value.toList).map key.comment
  | none => []

theorem foldl_entryComments {metadata : Metadata} (h : metadata.IsTidy) {key : Key}
    (hne : ∀ value, metadata.get key = some value → value ≠ "")
    (hlast : ∀ text, metadata.strategy = some text → text.toList.getLast? ≠ some '\n') :
    (metadata.entryComments key).foldl addComment {} = (metadata.get key).elim {} (put {} key) := by
  rw [entryComments]
  cases hget : metadata.get key with
  | none => rfl
  | some value =>
    obtain ⟨first, rest, hvalue, htidy, hkey⟩ := h key value hget
    have hfull : Text.joinLines first rest ≠ [] := by
      intro hnil
      rw [hnil, String.toList_eq_nil_iff] at hvalue
      exact hne value hget hvalue
    have hend : (Text.joinLines first rest).getLast? ≠ some '\n' := by
      obtain rfl | rfl := hkey
      · rw [Text.joinLines_nil]
        exact fun hm => (htidy first List.mem_cons_self).newline (List.mem_of_getLast? hm)
      · rw [← hvalue]
        exact hlast value hget
    dsimp only
    rw [hvalue, Text.lines_joinLines (fun text hm => (htidy text hm).isLine) hfull hend]
    exact foldl_comment hvalue htidy hkey

def comments (metadata : Metadata) : List (List Char) := Key.all.flatMap metadata.entryComments

/-- The comments of all entries say the metadata again. -/
theorem foldl_comments {metadata : Metadata} (h : metadata.IsTidy)
    (hne : ∀ key value, metadata.get key = some value → value ≠ "")
    (hlast : ∀ text, metadata.strategy = some text → text.toList.getLast? ≠ some '\n') :
    metadata.comments.foldl addComment {} = metadata := by
  have hentry := fun key => foldl_entryComments h (hne key) hlast
  simp only [comments, Key.all, List.flatMap_cons, List.flatMap_nil, List.append_nil,
    List.foldl_append]
  rw [foldl_addComment _ (metadata.entryComments .strategy),
    foldl_addComment _ (metadata.entryComments .date),
    foldl_addComment _ (metadata.entryComments .version),
    foldl_addComment _ (metadata.entryComments .author), hentry, hentry, hentry, hentry, hentry]
  obtain ⟨name, author, version, date, strategy⟩ := metadata
  cases name <;> cases author <;> cases version <;> cases date <;> cases strategy <;> rfl

theorem Key.isLine_comment (key : Key) {text : List Char} (h : Text.Tidy text) :
    Text.IsLine (';' :: key.comment text) := by
  have hfeed : '\n' ∉ key.text.toList := fun hm =>
    absurd (key.not_isBlank_text _ hm) (by decide)
  constructor
  · simpa [comment, hfeed] using h.newline
  · rw [List.getLast?_cons, getLast?_comment]
    cases hlast : text.getLast? with
    | none => decide
    | some c =>
      rintro ⟨⟩
      exact h.isLine.2 hlast

theorem isLine_of_mem_comments {metadata : Metadata} (h : metadata.IsTidy) {comment : List Char}
    (hm : comment ∈ metadata.comments) : Text.IsLine (';' :: comment) := by
  obtain ⟨key, _, hkey⟩ := List.mem_flatMap.mp hm
  rw [entryComments] at hkey
  cases hget : metadata.get key with
  | none =>
    rw [hget] at hkey
    cases hkey
  | some value =>
    rw [hget] at hkey
    obtain ⟨text, htext, rfl⟩ := List.mem_map.mp hkey
    obtain ⟨first, rest, hvalue, htidy, _⟩ := h key value hget
    rw [hvalue] at htext
    exact key.isLine_comment (htidy text
      (Text.mem_of_mem_lines_joinLines (fun text hm => (htidy text hm).isLine) htext))

end Metadata

namespace Source

theorem isTidy_readMetadata {texts : List (List Char)} (h : ∀ text ∈ texts, '\n' ∉ text) :
    (readMetadata texts).IsTidy := by
  refine Metadata.IsTidy.foldl_addComment (fun key value hvalue => by cases key <;> cases hvalue) ?_
  intro comment hm
  obtain ⟨text, htext, hcomment⟩ := List.mem_filterMap.mp hm
  intro hfeed
  have hstart : Text.trimStart text = ';' :: comment := by
    rw [comment?] at hcomment
    split at hcomment
    · next he =>
      cases hcomment
      exact he
    · cases hcomment
  have hsub : '\n' ∈ Text.trimStart text := by
    rw [hstart]
    exact List.mem_cons_of_mem _ hfeed
  exact h text htext ((List.dropWhile_suffix _).subset hsub)

theorem Document.isTidy_metadata {source : String} {document : Document}
    (h : Document.read source = .ok document) : document.metadata.IsTidy := by
  obtain ⟨records, _, rfl⟩ := map_eq_ok_iff.mp h
  exact isTidy_readMetadata fun text => Text.not_mem_of_mem_lines

end Source

end CoreWar
