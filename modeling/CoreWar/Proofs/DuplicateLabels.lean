import CoreWar.Proofs.LabelLines
import CoreWar.Proofs.Locations

namespace CoreWar

namespace Source

section

variable {lines : List NumberedLine}

theorem mem_labelPlaces_iff {name : String} {number : Nat} :
    (name, number) ∈ labelPlaces lines ↔
      ∃ line ∈ lines, line.number = number ∧ name ∈ line.labels := by
  rw [labelPlaces, List.mem_flatMap]
  apply exists_congr
  intro line
  apply and_congr_right
  intro _
  simp [and_comm]

theorem pairwise_labelPlaces (hsorted : InOrder lines) :
    (labelPlaces lines).Pairwise fun first second => first.2 ≤ second.2 := by
  rw [labelPlaces, List.pairwise_flatMap]
  constructor
  · intro line _
    rw [List.pairwise_map]
    exact List.pairwise_of_forall fun _ _ => Nat.le_refl _
  · refine hsorted.imp fun hlt first hfirst second hsecond => ?_
    obtain ⟨_, _, rfl⟩ := List.mem_map.mp hfirst
    obtain ⟨_, _, rfl⟩ := List.mem_map.mp hsecond
    exact Nat.le_of_lt hlt

theorem labelPlaces_filter (lines : List NumberedLine) (number : Nat) :
    labelPlaces (lines.filter (·.number ≤ number)) =
      (labelPlaces lines).filter (·.2 ≤ number) := by
  induction lines with
  | nil => rfl
  | cons line lines ih =>
    have hsplit : (labelPlaces (line :: lines)).filter (·.2 ≤ number) =
        (line.labels.map (·, line.number)).filter (·.2 ≤ number) ++
          (labelPlaces lines).filter (·.2 ≤ number) := List.filter_append _ _
    rw [hsplit, ← ih, List.filter_cons]
    by_cases hle : line.number ≤ number
    · have hall : (line.labels.map (·, line.number)).filter (·.2 ≤ number) =
          line.labels.map (·, line.number) := by simp [hle]
      rw [hall, if_pos (decide_eq_true hle)]
      rfl
    · have hnone : (line.labels.map (·, line.number)).filter (·.2 ≤ number) = [] := by
        simp [Nat.lt_of_not_le hle]
      rw [hnone, if_neg (by simp [hle]), List.nil_append]

end

/-- Line `number` carries the label, which occurs at least twice up to this line. -/
structure ReportedInPlace (lines : List NumberedLine) (number : Nat) (name : String) : Prop where
  carried : ∃ line ∈ lines, line.number = number ∧ name ∈ line.labels
  repeated : 2 ≤ ((lines.filter (·.number ≤ number)).flatMap (·.labels)).count name

instance (lines : List NumberedLine) (number : Nat) (name : String) :
    Decidable (ReportedInPlace lines number name) :=
  decidable_of_iff
    ((∃ line ∈ lines, line.number = number ∧ name ∈ line.labels) ∧
      2 ≤ ((lines.filter (·.number ≤ number)).flatMap (·.labels)).count name)
    ⟨fun h => ⟨h.1, h.2⟩, fun h => ⟨h.carried, h.repeated⟩⟩

namespace FirstRepeat

theorem exists_of_map {α β : Type} {known : List String} {f : α → β} {entries : List (String × α)}
    {before : List (String × β)} {entry : String × β}
    (h : FirstRepeat known (entries.map (Prod.map id f)) before entry) :
    ∃ first item, FirstRepeat known entries first (entry.1, item) ∧ f item = entry.2 := by
  obtain ⟨⟨after, hsplit⟩, hnodup, hmem⟩ := h
  obtain ⟨first, rest, rfl, rfl, hrest⟩ := List.map_eq_append_iff.mp hsplit
  obtain ⟨⟨name, item⟩, more, rfl, rfl, _⟩ := List.map_eq_cons_iff.mp hrest
  have hnames : (first.map (Prod.map id f)).map Prod.fst = first.map Prod.fst := by
    rw [List.map_map]
    rfl
  rw [hnames] at hnodup hmem
  exact ⟨first, item, ⟨⟨more, rfl⟩, hnodup, hmem⟩, rfl⟩

variable {lines : List NumberedLine} {before : List (String × Nat)} {name : String} {place : Nat}

theorem two_le_count_iff (h : FirstRepeat [] (labelPlaces lines) before (name, place))
    (hsorted : InOrder lines) (number : Nat) :
    2 ≤ ((lines.filter (·.number ≤ number)).flatMap (·.labels)).count name ↔ place ≤ number := by
  obtain ⟨⟨after, hsplit⟩, hnodup, hmem⟩ := h
  rw [List.append_nil, List.nodup_reverse] at hnodup
  rw [List.append_nil, List.mem_reverse] at hmem
  have horder := pairwise_labelPlaces hsorted
  rw [hsplit, List.pairwise_append, List.pairwise_cons] at horder
  obtain ⟨_, ⟨hafter, _⟩, hbefore⟩ := horder
  rw [← map_fst_labelPlaces, labelPlaces_filter, hsplit, List.filter_append]
  by_cases hle : place ≤ number
  · have hall : before.filter (·.2 ≤ number) = before := by
      apply List.filter_eq_self.mpr
      intro entry hm
      exact decide_eq_true (Nat.le_trans (hbefore entry hm _ List.mem_cons_self) hle)
    have hone : 0 < (before.map Prod.fst).count name := List.count_pos_iff.mpr hmem
    rw [hall, List.filter_cons, if_pos (decide_eq_true hle), List.map_append, List.map_cons,
      List.count_append, List.count_cons_self]
    exact iff_of_true (by omega) hle
  · have hnone : ((name, place) :: after).filter (·.2 ≤ number) = [] := by
      apply List.filter_eq_nil_iff.mpr
      intro entry hm
      obtain rfl | hm := List.mem_cons.mp hm
      · simpa using hle
      · have hlater := hafter entry hm
        simp only [decide_eq_true_eq]
        omega
    have hsub := (before.filter_sublist (p := (·.2 ≤ number))).map Prod.fst
    have hcount := List.nodup_iff_count_le_one.mp (hnodup.sublist hsub) name
    rw [hnone, List.append_nil]
    exact iff_of_false (by omega) hle

theorem reportedInPlace_iff (h : FirstRepeat [] (labelPlaces lines) before (name, place))
    (hsorted : InOrder lines) (number : Nat) :
    ReportedInPlace lines number name ↔
      number = place ∨ place < number ∧ (name, number) ∈ labelPlaces lines := by
  have hcount := h.two_le_count_iff hsorted number
  constructor
  · rintro ⟨hcarried, hrepeated⟩
    obtain rfl | hlt := Nat.eq_or_lt_of_le (hcount.mp hrepeated)
    · exact .inl rfl
    · exact .inr ⟨hlt, mem_labelPlaces_iff.mpr hcarried⟩
  · rintro (rfl | ⟨hlt, hm⟩)
    · obtain ⟨after, hsplit⟩ := h.exists_after
      have hm : (name, number) ∈ labelPlaces lines := by simp [hsplit]
      exact ⟨mem_labelPlaces_iff.mp hm, hcount.mpr (Nat.le_refl _)⟩
    · exact ⟨mem_labelPlaces_iff.mp hm, hcount.mpr (Nat.le_of_lt hlt)⟩

end FirstRepeat

theorem collectSymbols_of_assembleRecords {records : List Record} {number : Nat} {name : String}
    (h : assembleRecords records = .error (.atLine number (.duplicateSymbol name))) :
    collectSymbols 0 {} records = .error (.atLine number (.duplicateSymbol name)) := by
  rw [assembleRecords] at h
  obtain h | ⟨table, _, h⟩ := bind_eq_error_iff.mp h
  · exact h
  · obtain h | ⟨⟨code, start⟩, _, h⟩ := bind_eq_error_iff.mp h
    · obtain ⟨record, _, cause, hcause, he⟩ := faultIn_of_assembleFrom h
      have hroot := root_locate cause record.line
      rw [he] at hroot
      cases hcause <;> cases hroot
    · dsimp only at h
      rw [Program.ofCode] at h
      split at h <;> cases h

/-- The line that is reported is the one of the record of the first repeated label. -/
theorem exists_firstRepeat_of_assemble {source : String} {number : Nat} {name : String}
    (h : Program.assemble source = .error (.atLine number (.duplicateSymbol name))) :
    ∃ before place, FirstRepeat [] (labelPlaces (sourceLines source)) before (name, place) ∧
      recordLine? (sourceLines source) place = some number := by
  rw [Program.assemble] at h
  obtain h | ⟨document, hread, h⟩ := bind_eq_error_iff.mp h
  · obtain ⟨_, _, _, _, he, _⟩ := exists_place_of_readRecords_error (map_eq_error_iff.mp h)
    cases he
  · obtain h | ⟨_, _, h⟩ := bind_eq_error_iff.mp h
    · obtain ⟨before, label, line, hrepeat, he⟩ :=
        exists_firstRepeat (collectSymbols_of_assembleRecords h)
      rw [attachments_of_read hread] at hrepeat
      obtain ⟨first, place, hfirst, hplace⟩ := hrepeat.exists_of_map
      cases line with
      | none => cases he
      | some line =>
        cases he
        exact ⟨first, place, hfirst, hplace⟩
    · cases h

end Source

open Source

/-- The report of a repeated label names the line of the record that the label belongs to. The label
is there, and not for the first time, just if this is the line where the label is written, or a
later one that has it once more. -/
theorem Program.duplicate_reported_iff {source : String} {number : Nat} {name : String}
    (h : Program.assemble source = .error (.atLine number (.duplicateSymbol name))) :
    ∃ before place, FirstRepeat [] (labelPlaces (sourceLines source)) before (name, place) ∧
      recordLine? (sourceLines source) place = some number ∧
      (ReportedInPlace (sourceLines source) number name ↔
        number = place ∨
          place < number ∧ (name, number) ∈ labelPlaces (sourceLines source)) := by
  obtain ⟨before, place, hrepeat, hplace⟩ := exists_firstRepeat_of_assemble h
  have hsorted := inOrder_sourceLines source
  exact ⟨before, place, hrepeat, hplace, hrepeat.reportedInPlace_iff hsorted number⟩

theorem Program.duplicate_reported_iff_twin :
    Program.assemble twinSource = .error (.atLine 3 (.duplicateSymbol "x")) ∧
    ReportedInPlace (sourceLines twinSource) 3 "x" := by
  obtain ⟨before, place, hrepeat, _, hiff⟩ :=
    Program.duplicate_reported_iff Program.assemble_twinSource
  have hplaces : labelPlaces (sourceLines twinSource) = [("x", 2), ("x", 3)] := by decide +kernel
  have hplace : 3 = place := by
    obtain ⟨after, hsplit⟩ := hrepeat.exists_after
    have hmem := hrepeat.mem
    rw [hplaces] at hsplit
    obtain _ | ⟨first, _ | ⟨second, before⟩⟩ := before
    · cases hmem
    · cases hsplit
      rfl
    · simp at hsplit
  exact ⟨Program.assemble_twinSource, hiff.mpr (.inl hplace)⟩

def looseSource : String := "x\nx\nEND\n"

def danglingSource : String := "x\ny\nx\n"

/-- The report names a line without the label, or the line where it comes first. -/
theorem Program.duplicate_reported_elsewhere :
    Program.assemble looseSource = .error (.atLine 3 (.duplicateSymbol "x")) ∧
    ¬ ReportedInPlace (sourceLines looseSource) 3 "x" ∧
    Program.assemble danglingSource = .error (.atLine 1 (.duplicateSymbol "x")) ∧
    ¬ ReportedInPlace (sourceLines danglingSource) 1 "x" := by
  have hloose : Document.read looseSource = .ok ⟨[⟨["x", "x"], some 3, .finish none⟩], {}⟩ := by
    decide +kernel
  have hdangling :
      Document.read danglingSource = .ok ⟨[⟨["x", "y", "x"], some 1, .finish none⟩], {}⟩ := by
    decide +kernel
  refine ⟨?_, by decide +kernel, ?_, by decide +kernel⟩
  · rw [Program.assemble, hloose]
    rfl
  · rw [Program.assemble, hdangling]
    rfl

end CoreWar
