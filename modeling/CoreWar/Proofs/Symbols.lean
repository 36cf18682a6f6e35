import CoreWar.Assembly.Assemble
import CoreWar.Proofs.Checks
import Mathlib.Data.List.Nodup

namespace CoreWar

namespace SymbolTable

def names (table : SymbolTable) : List String := table.entries.map (·.1)

theorem get?_eq_none_iff {table : SymbolTable} {name : String} :
    table.get? name = none ↔ name ∉ table.names := by
  rw [get?, List.lookup_eq_none_iff, names, List.mem_map]
  constructor
  · rintro h ⟨entry, hm, rfl⟩
    simpa using h entry hm
  · intro h entry hm
    simpa using fun he : name = entry.1 => h ⟨entry, hm, he.symm⟩

theorem lookup_of_mem {entries : List (String × Symbol)} (h : (entries.map (·.1)).Nodup)
    {name : String} {symbol : Symbol} (hm : (name, symbol) ∈ entries) :
    entries.lookup name = some symbol := by
  induction entries with
  | nil => cases hm
  | cons entry entries ih =>
    rw [List.map_cons, List.nodup_cons] at h
    rw [List.lookup_cons]
    obtain rfl | hm := List.mem_cons.mp hm
    · rw [beq_self_eq_true]
    · have hne : name ≠ entry.1 := by
        intro he
        exact h.1 (List.mem_map.mpr ⟨(name, symbol), hm, he⟩)
      rw [beq_eq_false_iff_ne.mpr hne]
      exact ih h.2 hm

theorem get?_eq_some_iff {table : SymbolTable} (h : table.names.Nodup) {name : String}
    {symbol : Symbol} : table.get? name = some symbol ↔ (name, symbol) ∈ table.entries :=
  ⟨mem_of_lookup, lookup_of_mem h⟩

theorem define_eq_ok_iff {table result : SymbolTable} {name : String} {symbol : Symbol} :
    table.define name symbol = .ok result ↔
      name ∉ table.names ∧ result = ⟨(name, symbol) :: table.entries⟩ := by
  rw [define, ← get?_eq_none_iff]
  cases table.get? name with
  | none => simp [eq_comm]
  | some symbol => simp

theorem define_eq_error_iff {table : SymbolTable} {name : String} {symbol : Symbol}
    {error : SourceError} :
    table.define name symbol = .error error ↔
      name ∈ table.names ∧ error = .duplicateSymbol name := by
  have hmem : name ∈ table.names ↔ table.get? name ≠ none := by
    rw [Ne, get?_eq_none_iff, not_not]
  rw [define, hmem]
  cases table.get? name with
  | none => simp
  | some symbol => simp [eq_comm]

theorem ok_eq_iff {table result : SymbolTable} (h : table.names.Nodup) :
    (Except.ok table : Except SourceError SymbolTable) = .ok result ↔
      result.entries = table.entries ∧ result.names.Nodup := by
  obtain ⟨entries⟩ := table
  obtain ⟨other⟩ := result
  constructor
  · rintro ⟨⟩
    exact ⟨rfl, h⟩
  · rintro ⟨rfl, _⟩
    rfl

end SymbolTable

namespace Source

def Body.draft? : Body → Option Draft
  | instruction draft => some draft
  | _ => none

def drafts (records : List Record) : List Draft := records.filterMap (·.body.draft?)

def labels (records : List Record) : List String := records.flatMap (·.labels)

def attachments (records : List Record) : List (String × Option Nat) :=
  records.flatMap fun record => record.labels.map (·, record.line)

/-- A record that carries the label says what it stands for. -/
def Defines (records : List Record) (name : String) (symbol : Symbol) : Prop :=
  ∃ before record after, records = before ++ record :: after ∧ name ∈ record.labels ∧
    symbol = record.body.symbol (drafts before).length

/-- All labels with what they stand for, if the first instruction has address `pc`. -/
def definitions (pc : Nat) : List Record → List (String × Symbol)
  | [] => []
  | record :: records =>
    record.labels.map (·, record.body.symbol pc) ++
      definitions (pc + (drafts [record]).length) records

def symbolTable (records : List Record) : SymbolTable := ⟨(definitions 0 records).reverse⟩

theorem drafts_cons (record : Record) (records : List Record) :
    drafts (record :: records) = drafts [record] ++ drafts records :=
  List.filterMap_append (l := [record])

theorem length_drafts_singleton (record : Record) :
    (drafts [record]).length = if record.body.isInstruction then 1 else 0 := by
  obtain ⟨labels, line, body⟩ := record
  cases body <;> rfl

theorem map_fst_definitions (pc : Nat) (records : List Record) :
    (definitions pc records).map (·.1) = labels records := by
  induction records generalizing pc with
  | nil => rfl
  | cons record records ih =>
    have hlabels : (record.labels.map (·, record.body.symbol pc)).map (·.1) = record.labels := by
      rw [List.map_map]
      exact List.map_id _
    rw [definitions, List.map_append, ih, hlabels]
    rfl

theorem mem_definitions_iff {pc : Nat} {records : List Record} {name : String} {symbol : Symbol} :
    (name, symbol) ∈ definitions pc records ↔
      ∃ before record after, records = before ++ record :: after ∧ name ∈ record.labels ∧
        symbol = record.body.symbol (pc + (drafts before).length) := by
  induction records generalizing pc with
  | nil => simp [definitions]
  | cons first records ih =>
    rw [definitions, List.mem_append, ih]
    constructor
    · rintro (hm | ⟨before, record, after, rfl, hm, rfl⟩)
      · obtain ⟨label, hlabel, he⟩ := List.mem_map.mp hm
        cases he
        exact ⟨[], first, records, rfl, hlabel, rfl⟩
      · refine ⟨first :: before, record, after, rfl, hm, ?_⟩
        rw [drafts_cons first before, List.length_append, Nat.add_assoc]
    · rintro ⟨before, record, after, he, hm, rfl⟩
      cases before with
      | nil =>
        cases he
        exact .inl (List.mem_map.mpr ⟨name, hm, rfl⟩)
      | cons head before =>
        cases he
        refine .inr ⟨before, record, after, rfl, hm, ?_⟩
        rw [drafts_cons first before, List.length_append, Nat.add_assoc]

theorem names_symbolTable (records : List Record) :
    (symbolTable records).names = (labels records).reverse := by
  rw [SymbolTable.names, symbolTable, List.map_reverse, map_fst_definitions]

theorem get?_symbolTable_iff {records : List Record} (h : (labels records).Nodup) {name : String}
    {symbol : Symbol} :
    (symbolTable records).get? name = some symbol ↔ Defines records name symbol := by
  have hnames : (symbolTable records).names.Nodup := by
    rw [names_symbolTable]
    exact List.nodup_reverse.mpr h
  rw [SymbolTable.get?_eq_some_iff hnames, symbolTable, List.mem_reverse, mem_definitions_iff]
  simp only [Nat.zero_add]
  rfl

theorem defineAll_eq_ok_iff {table result : SymbolTable} (h : table.names.Nodup)
    {names : List String} {symbol : Symbol} :
    names.foldlM (fun table name => table.define name symbol) table = .ok result ↔
      result.entries = (names.map (·, symbol)).reverse ++ table.entries ∧ result.names.Nodup := by
  induction names generalizing table with
  | nil => exact SymbolTable.ok_eq_iff h
  | cons name names ih =>
    rw [List.foldlM_cons, bind_eq_ok_iff]
    simp only [SymbolTable.define_eq_ok_iff]
    constructor
    · rintro ⟨_, ⟨hnew, rfl⟩, hrest⟩
      have hnodup : SymbolTable.names ⟨(name, symbol) :: table.entries⟩ |>.Nodup :=
        List.nodup_cons.mpr ⟨hnew, h⟩
      simpa using (ih hnodup).mp hrest
    · rintro ⟨he, hresult⟩
      have hsuffix : SymbolTable.names ⟨(name, symbol) :: table.entries⟩ <:+ result.names := by
        refine ⟨names.reverse, ?_⟩
        simp [SymbolTable.names, he, Function.comp_def]
      have hnodup := hresult.sublist hsuffix.sublist
      refine ⟨_, ⟨(List.nodup_cons.mp hnodup).1, rfl⟩, (ih hnodup).mpr ⟨?_, hresult⟩⟩
      simpa using he

theorem collectSymbols_cons_eq_ok_iff {pc : Nat} {table result : SymbolTable} {record : Record}
    {records : List Record} :
    collectSymbols pc table (record :: records) = .ok result ↔
      ∃ middle : SymbolTable,
        record.labels.foldlM (fun table name => table.define name (record.body.symbol pc)) table =
          .ok middle ∧
        collectSymbols (pc + (drafts [record]).length) middle records = .ok result := by
  rw [collectSymbols, length_drafts_singleton]
  cases record.labels.foldlM (fun table name => table.define name (record.body.symbol pc)) table with
  | error e => simp
  | ok middle => cases record.body.isInstruction <;> simp

theorem collectSymbols_eq_ok_iff {pc : Nat} {table result : SymbolTable} (h : table.names.Nodup)
    {records : List Record} :
    collectSymbols pc table records = .ok result ↔
      result.entries = (definitions pc records).reverse ++ table.entries ∧ result.names.Nodup := by
  induction records generalizing pc table with
  | nil => exact SymbolTable.ok_eq_iff h
  | cons record records ih =>
    rw [collectSymbols_cons_eq_ok_iff, definitions]
    constructor
    · rintro ⟨middle, hfirst, hrest⟩
      obtain ⟨hmiddle, hnodup⟩ := (defineAll_eq_ok_iff h).mp hfirst
      obtain ⟨he, hresult⟩ := (ih hnodup).mp hrest
      refine ⟨?_, hresult⟩
      rw [he, hmiddle, List.reverse_append, List.append_assoc]
    · rintro ⟨he, hresult⟩
      rw [List.reverse_append, List.append_assoc] at he
      have hsuffix : SymbolTable.names
          ⟨(record.labels.map (·, record.body.symbol pc)).reverse ++ table.entries⟩ <:+
            result.names := by
        rw [SymbolTable.names, SymbolTable.names, he]
        exact (List.suffix_append _ _).map _
      have hnodup := hresult.sublist hsuffix.sublist
      exact ⟨_, (defineAll_eq_ok_iff h).mpr ⟨rfl, hnodup⟩, (ih hnodup).mpr ⟨he, hresult⟩⟩

/-- The first pass succeeds exactly if all labels are different, and gives the table of them. -/
theorem collectSymbols_eq_symbolTable_iff {records : List Record} {result : SymbolTable} :
    collectSymbols 0 {} records = .ok result ↔
      (labels records).Nodup ∧ result = symbolTable records := by
  have hempty : SymbolTable.names {} |>.Nodup := List.nodup_nil
  rw [collectSymbols_eq_ok_iff hempty, List.append_nil]
  constructor
  · rintro ⟨he, hnodup⟩
    obtain ⟨entries⟩ := result
    obtain rfl : entries = (definitions 0 records).reverse := he
    rw [← symbolTable, names_symbolTable, List.nodup_reverse] at hnodup
    exact ⟨hnodup, rfl⟩
  · rintro ⟨hnodup, rfl⟩
    rw [names_symbolTable, List.nodup_reverse]
    exact ⟨rfl, hnodup⟩

/-- The entry is the first one whose name is known, or is the name of an entry before it. -/
structure FirstRepeat {α : Type} (known : List String) (entries before : List (String × α))
    (entry : String × α) : Prop where
  exists_after : ∃ after, entries = before ++ entry :: after
  nodup : ((before.map Prod.fst).reverse ++ known).Nodup
  mem : entry.1 ∈ (before.map Prod.fst).reverse ++ known

namespace FirstRepeat

variable {α : Type} {known : List String} {entries before : List (String × α)} {entry : String × α}

theorem append (h : FirstRepeat known entries before entry) (more : List (String × α)) :
    FirstRepeat known (entries ++ more) before entry := by
  obtain ⟨after, rfl⟩ := h.exists_after
  exact ⟨⟨after ++ more, by simp⟩, h.nodup, h.mem⟩

theorem prepend (first : List (String × α))
    (h : FirstRepeat ((first.map Prod.fst).reverse ++ known) entries before entry) :
    FirstRepeat known (first ++ entries) (first ++ before) entry := by
  obtain ⟨⟨after, rfl⟩, hnodup, hmem⟩ := h
  have hknown : ((first ++ before).map Prod.fst).reverse ++ known =
      (before.map Prod.fst).reverse ++ ((first.map Prod.fst).reverse ++ known) := by simp
  exact ⟨⟨after, (List.append_assoc _ _ _).symm⟩, hknown ▸ hnodup, hknown ▸ hmem⟩

end FirstRepeat

theorem exists_firstRepeat_of_defineAll {table : SymbolTable} (h : table.names.Nodup)
    {names : List String} {symbol : Symbol} {error : SourceError}
    (he : names.foldlM (fun table name => table.define name symbol) table = .error error)
    (line : Option Nat) :
    ∃ before name, FirstRepeat table.names (names.map (·, line)) before (name, line) ∧
      error = .duplicateSymbol name := by
  induction names generalizing table with
  | nil => cases he
  | cons name names ih =>
    rw [List.foldlM_cons] at he
    obtain he | ⟨more, hmore, he⟩ := bind_eq_error_iff.mp he
    · obtain ⟨hmem, rfl⟩ := SymbolTable.define_eq_error_iff.mp he
      exact ⟨[], name, ⟨⟨_, rfl⟩, h, hmem⟩, rfl⟩
    · obtain ⟨hnew, rfl⟩ := SymbolTable.define_eq_ok_iff.mp hmore
      have hnodup : SymbolTable.names ⟨(name, symbol) :: table.entries⟩ |>.Nodup :=
        List.nodup_cons.mpr ⟨hnew, h⟩
      obtain ⟨before, other, hrepeat, rfl⟩ := ih hnodup he
      exact ⟨_, other, FirstRepeat.prepend [(name, line)] hrepeat, rfl⟩

theorem exists_firstRepeat_of_collectSymbols {pc : Nat} {table : SymbolTable}
    (h : table.names.Nodup) {records : List Record} {error : SourceError}
    (he : collectSymbols pc table records = .error error) :
    ∃ before name line, FirstRepeat table.names (attachments records) before (name, line) ∧
      error = (SourceError.duplicateSymbol name).locate line := by
  induction records generalizing pc table with
  | nil => cases he
  | cons record records ih =>
    rw [collectSymbols] at he
    split at he
    · next cause hcause =>
      cases he
      obtain ⟨before, name, hrepeat, rfl⟩ := exists_firstRepeat_of_defineAll h hcause record.line
      exact ⟨before, name, record.line, hrepeat.append _, rfl⟩
    · next middle hmiddle =>
      obtain ⟨hentries, hnodup⟩ := (defineAll_eq_ok_iff h).mp hmiddle
      have hnames : middle.names =
          ((record.labels.map (·, record.line)).map Prod.fst).reverse ++ table.names := by
        simp [SymbolTable.names, hentries, Function.comp_def]
      obtain ⟨before, name, line, hrepeat, rfl⟩ := ih hnodup he
      exact ⟨_, name, line, FirstRepeat.prepend _ (hnames ▸ hrepeat), rfl⟩

/-- The first pass fails at the first label that repeats one, at the line of its record. -/
theorem exists_firstRepeat {records : List Record} {error : SourceError}
    (h : collectSymbols 0 {} records = .error error) :
    ∃ before name line, FirstRepeat [] (attachments records) before (name, line) ∧
      error = (SourceError.duplicateSymbol name).locate line := by
  have hempty : SymbolTable.names {} |>.Nodup := List.nodup_nil
  exact exists_firstRepeat_of_collectSymbols hempty h

end Source

end CoreWar
