import CoreWar.Proofs.Assembly

namespace CoreWar

def Expr.substitute (expr : Expr) (names : List String) (body : Expr) : Expr :=
  match expr with
  | number value => number value
  | symbol name => if name ∈ names then body else symbol name
  | binary op lhs rhs => binary op (lhs.substitute names body) (rhs.substitute names body)

def DraftOperand.mapExpr (f : Expr → Expr) (operand : DraftOperand) : DraftOperand :=
  ⟨operand.mode, f operand.expr⟩

def Draft.mapExpr (f : Expr → Expr) (draft : Draft) : Draft :=
  ⟨draft.opcode, draft.modifier, draft.a.mapExpr f, draft.b.map (·.mapExpr f)⟩

def Symbol.mapExpr (f : Expr → Expr) : Symbol → Symbol
  | address index => address index
  | equate expr => equate (f expr)

def Source.Body.mapExpr (f : Expr → Expr) : Body → Body
  | instruction draft => instruction (draft.mapExpr f)
  | origin expr => origin (f expr)
  | finish target => finish (target.map f)
  | equate expr => equate (f expr)

def Source.Record.mapExpr (f : Expr → Expr) (record : Record) : Record :=
  ⟨record.labels, record.line, record.body.mapExpr f⟩

theorem Draft.operand?_mapExpr (f : Expr → Expr) (draft : Draft) (field : Field) :
    (draft.mapExpr f).operand? field = (draft.operand? field).map (·.mapExpr f) := by
  obtain ⟨opcode, modifier, a, b⟩ := draft
  by_cases hdat : opcode = .dat <;> cases b <;> cases field <;> simp [mapExpr, operand?, hdat]

namespace SymbolTable

variable {table reduced : SymbolTable} {names : List String} {body : Expr} {pc : Nat}

/-- The names are equates for `body` in one table. The other table knows all else that the first one
does, with `body` in the place of the names. -/
structure Inlines (table reduced : SymbolTable) (names : List String) (body : Expr) : Prop where
  equate : ∀ name ∈ names, table.get? name = some (.equate body)
  rest : ∀ name ∉ names, ∀ symbol, table.get? name = some symbol →
    reduced.get? name = some (symbol.mapExpr (·.substitute names body))

theorem substitute_eq_self {expr : Expr}
    (h : ∀ name ∈ names, ¬ Relation.ReflTransGen table.Needs expr (.symbol name)) :
    expr.substitute names body = expr := by
  induction expr with
  | number value => rfl
  | symbol name =>
    apply if_neg
    intro hm
    exact h name hm .refl
  | binary op lhs rhs ihl ihr =>
    have hl := ihl fun name hm hneeds => h name hm (.head (.lhs op lhs rhs) hneeds)
    have hr := ihr fun name hm hneeds => h name hm (.head (.rhs op lhs rhs) hneeds)
    rw [Expr.substitute, hl, hr]

/-- What an expression means does not change. An equate that means something does not need its own
names, so these do not come back with its expression. -/
theorem Means.substitute (hinline : table.Inlines reduced names body) {expr : Expr} {value : Int64}
    (h : table.Means pc expr value) : reduced.Means pc (expr.substitute names body) value := by
  induction h with
  | number value => exact .number value
  | @address name address hget =>
    have hm : name ∉ names := fun hm => by cases hget.symm.trans (hinline.equate name hm)
    rw [Expr.substitute, if_neg hm]
    exact .address (hinline.rest name hm _ hget)
  | @equate name expr value hget hmeans ih =>
    by_cases hm : name ∈ names
    · cases hget.symm.trans (hinline.equate name hm)
      have hself : body.substitute names body = body :=
        substitute_eq_self fun other ho => hmeans.not_needs_name (hinline.equate other ho)
      rw [hself] at ih
      rw [Expr.substitute, if_pos hm]
      exact ih
    · rw [Expr.substitute, if_neg hm]
      exact .equate (hinline.rest name hm _ hget) ih
  | binary _ _ hop ihl ihr => exact .binary ihl ihr hop

theorem Inlines.evaluate (hinline : table.Inlines reduced names body) {expr : Expr} {value : Int64}
    (h : table.evaluate expr pc = .ok value) :
    reduced.evaluate (expr.substitute names body) pc = .ok value :=
  evaluate_eq_ok_iff.mpr ((evaluate_eq_ok_iff.mp h).substitute hinline)

section

variable {f : Expr → Expr}
  (hvalue : ∀ {pc : Nat} {expr : Expr} {value : Int64},
    table.evaluate expr pc = .ok value → reduced.evaluate (f expr) pc = .ok value)

include hvalue

theorem Resolves.mapExpr {draft : Draft} {insn : Instruction} (h : table.Resolves pc draft insn) :
    reduced.Resolves pc (draft.mapExpr f) insn := by
  refine ⟨h.opcode, h.modifier, ?_⟩
  intro field
  have hfills := h.operands field
  rw [Draft.operand?_mapExpr]
  cases hfield : draft.operand? field with
  | none =>
    rw [hfield] at hfills
    exact hfills
  | some operand =>
    rw [hfield] at hfills
    exact ⟨hfills.1, hvalue hfills.2⟩

end

end SymbolTable

namespace Source

theorem refuseInstructions_map (f : Expr → Expr) (records : List Record) :
    refuseInstructions (records.map (·.mapExpr f)) = refuseInstructions records := by
  induction records with
  | nil => rfl
  | cons record records ih =>
    obtain ⟨labels, line, body⟩ := record
    cases body with
    | instruction draft => rfl
    | origin expr | finish target | equate expr => exact ih

theorem assembleFrom_map {table reduced : SymbolTable} {f : Expr → Expr}
    (hvalue : ∀ {pc : Nat} {expr : Expr} {value : Int64},
      table.evaluate expr pc = .ok value → reduced.evaluate (f expr) pc = .ok value)
    {pc : Nat} {start : Option Int64} {records : List Record}
    {result : List Instruction × Option Int64}
    (h : assembleFrom table pc start records = .ok result) :
    assembleFrom reduced pc start (records.map (·.mapExpr f)) = .ok result := by
  induction records generalizing pc start result with
  | nil => exact h
  | cons record records ih =>
    obtain ⟨labels, line, body⟩ := record
    rw [List.map_cons]
    cases body with
    | instruction draft =>
      rw [assembleFrom, bind_eq_ok_iff] at h
      obtain ⟨insn, hinsn, h⟩ := h
      obtain ⟨rest, hrest, h⟩ := bind_eq_ok_iff.mp h
      rw [mapError_eq_ok_iff, SymbolTable.resolve_eq_ok_iff] at hinsn
      have hmapped := SymbolTable.resolve_eq_ok_iff.mpr (hinsn.mapExpr hvalue)
      exact bind_eq_ok_iff.mpr ⟨insn, mapError_eq_ok_iff.mpr hmapped,
        bind_eq_ok_iff.mpr ⟨rest, ih hrest, h⟩⟩
    | origin expr =>
      rw [assembleFrom, bind_eq_ok_iff] at h
      obtain ⟨value, hexpr, h⟩ := h
      rw [mapError_eq_ok_iff] at hexpr
      exact bind_eq_ok_iff.mpr ⟨value, mapError_eq_ok_iff.mpr (hvalue hexpr), ih h⟩
    | finish target =>
      cases target with
      | none =>
        rw [assembleFrom, ← refuseInstructions_map f] at h
        exact h
      | some expr =>
        rw [assembleFrom, bind_eq_ok_iff, ← refuseInstructions_map f] at h
        obtain ⟨value, hexpr, h⟩ := h
        rw [mapError_eq_ok_iff] at hexpr
        exact bind_eq_ok_iff.mpr ⟨value, mapError_eq_ok_iff.mpr (hvalue hexpr), h⟩
    | equate expr => exact ih h

theorem refuseInstructions_drop_equate (before after : List Record) (labels : List String)
    (line : Option Nat) (expr : Expr) :
    refuseInstructions (before ++ ⟨labels, line, .equate expr⟩ :: after) =
      refuseInstructions (before ++ after) := by
  induction before with
  | nil => rfl
  | cons record before ih =>
    rw [List.cons_append, List.cons_append, refuseInstructions, refuseInstructions, ih]

theorem assembleFrom_drop_equate (table : SymbolTable) (pc : Nat) (start : Option Int64)
    (before after : List Record) (labels : List String) (line : Option Nat) (expr : Expr) :
    assembleFrom table pc start (before ++ ⟨labels, line, .equate expr⟩ :: after) =
      assembleFrom table pc start (before ++ after) := by
  induction before generalizing pc start with
  | nil => rfl
  | cons record before ih =>
    obtain ⟨own, place, body⟩ := record
    rw [List.cons_append, List.cons_append]
    cases body with
    | instruction draft | origin target | equate target => simp only [assembleFrom, ih]
    | finish target =>
      cases target <;> simp only [assembleFrom, refuseInstructions_drop_equate]

theorem drafts_map (f : Expr → Expr) (records : List Record) :
    drafts (records.map (·.mapExpr f)) = (drafts records).map (·.mapExpr f) := by
  induction records with
  | nil => rfl
  | cons record records ih =>
    obtain ⟨labels, line, body⟩ := record
    cases body with
    | instruction draft => exact congrArg (draft.mapExpr f :: ·) ih
    | origin expr | finish target | equate expr => exact ih

theorem definitions_map (f : Expr → Expr) (pc : Nat) (records : List Record) :
    definitions pc (records.map (·.mapExpr f)) =
      (definitions pc records).map fun (name, symbol) => (name, symbol.mapExpr f) := by
  induction records generalizing pc with
  | nil => rfl
  | cons record records ih =>
    have hsymbol : (record.body.mapExpr f).symbol pc = (record.body.symbol pc).mapExpr f := by
      cases record.body <;> rfl
    have hlength : (drafts [record.mapExpr f]).length = (drafts [record]).length := by
      have hdrafts := drafts_map f [record]
      rw [List.map_singleton] at hdrafts
      rw [hdrafts, List.length_map]
    rw [List.map_cons, definitions, definitions, ih, hlength, List.map_append, List.map_map]
    simp only [Record.mapExpr, hsymbol, Function.comp_def]

theorem definitions_append (pc : Nat) (before after : List Record) :
    definitions pc (before ++ after) =
      definitions pc before ++ definitions (pc + (drafts before).length) after := by
  induction before generalizing pc with
  | nil => rfl
  | cons record before ih =>
    rw [List.cons_append, definitions, definitions, ih, drafts_cons record before,
      List.length_append, List.append_assoc, Nat.add_assoc]

theorem get?_eq_some_iff_mem_definitions {records : List Record} (h : (labels records).Nodup)
    {name : String} {symbol : Symbol} :
    (symbolTable records).get? name = some symbol ↔ (name, symbol) ∈ definitions 0 records := by
  rw [get?_symbolTable_iff h, mem_definitions_iff]
  simp only [Nat.zero_add]
  rfl

/-- The records without the equate between `before` and `after`, with its expression in the place
of its names. -/
def inlineEquate (names : List String) (body : Expr) (before after : List Record) : List Record :=
  (before ++ after).map (·.mapExpr (·.substitute names body))

section

variable {before after : List Record} {names : List String} {line : Option Nat} {body : Expr}

theorem labels_inlineEquate_sublist :
    (labels (inlineEquate names body before after)).Sublist
      (labels (before ++ ⟨names, line, .equate body⟩ :: after)) := by
  have hlabels : labels (inlineEquate names body before after) = labels (before ++ after) :=
    List.flatMap_map ..
  rw [hlabels, labels, labels, List.flatMap_append, List.flatMap_append, List.flatMap_cons]
  exact (List.sublist_append_right _ _).append_left _

/-- The table of the records that are left inlines the names of the equate. -/
theorem inlines_symbolTable
    (hnodup : (labels (before ++ ⟨names, line, .equate body⟩ :: after)).Nodup) :
    (symbolTable (before ++ ⟨names, line, .equate body⟩ :: after)).Inlines
      (symbolTable (inlineEquate names body before after)) names body := by
  have hdefinitions : definitions 0 (before ++ ⟨names, line, .equate body⟩ :: after) =
      definitions 0 before ++
        (names.map (·, .equate body) ++ definitions (0 + (drafts before).length) after) := by
    rw [definitions_append]
    rfl
  constructor
  · intro name hm
    rw [get?_eq_some_iff_mem_definitions hnodup, hdefinitions, List.mem_append, List.mem_append]
    exact .inr (.inl (List.mem_map_of_mem hm))
  · intro name hm symbol hget
    rw [get?_eq_some_iff_mem_definitions hnodup, hdefinitions, List.mem_append,
      List.mem_append] at hget
    have hleft : (name, symbol) ∈ definitions 0 (before ++ after) := by
      rw [definitions_append, List.mem_append]
      obtain hbefore | hown | hafter := hget
      · exact .inl hbefore
      · obtain ⟨_, hname, he⟩ := List.mem_map.mp hown
        cases he
        exact absurd hname hm
      · exact .inr hafter
    rw [get?_eq_some_iff_mem_definitions (hnodup.sublist labels_inlineEquate_sublist),
      inlineEquate, definitions_map]
    exact List.mem_map_of_mem hleft

end

/-- Records that assemble still give the same program when one of their equates is left out and its
expression stands in the place of its names. -/
theorem assembleRecords_inlineEquate {before after : List Record} {names : List String}
    {line : Option Nat} {body : Expr} {program : Program}
    (h : assembleRecords (before ++ ⟨names, line, .equate body⟩ :: after) = .ok program) :
    assembleRecords (inlineEquate names body before after) = .ok program := by
  rw [assembleRecords, bind_eq_ok_iff] at h
  obtain ⟨table, hcollect, h⟩ := h
  obtain ⟨⟨code, start⟩, hpass, hprogram⟩ := bind_eq_ok_iff.mp h
  obtain ⟨hnodup, rfl⟩ := collectSymbols_eq_symbolTable_iff.mp hcollect
  have hinline := inlines_symbolTable hnodup
  rw [assembleFrom_drop_equate] at hpass
  have hcollect' := collectSymbols_eq_symbolTable_iff.mpr
    ⟨hnodup.sublist labels_inlineEquate_sublist, rfl⟩
  have hpass' := assembleFrom_map hinline.evaluate hpass
  exact bind_eq_ok_iff.mpr ⟨_, hcollect', bind_eq_ok_iff.mpr ⟨(code, start), hpass', hprogram⟩⟩

def reused : List Record :=
  [⟨["gap"], some 1, .equate (.binary .sub (.symbol "last") (.number 1))⟩,
    ⟨[], some 2, .instruction ⟨.mov, none, ⟨none, .symbol "gap"⟩, some ⟨none, .symbol "twice"⟩⟩⟩,
    ⟨["last"], some 3, .instruction ⟨.jmp, none, ⟨none, .symbol "gap"⟩, none⟩⟩,
    ⟨[], some 4, .finish (some (.symbol "gap"))⟩,
    ⟨["twice"], some 5, .equate (.binary .add (.symbol "gap") (.symbol "gap"))⟩]

def reusedProgram : Program where
  code := [⟨.mov, .i, ⟨.direct, 0⟩, ⟨.direct, 0⟩⟩, ⟨.jmp, .b, ⟨.direct, -1⟩, ⟨.immediate, 0⟩⟩]
  start := 0
  start_lt := by decide

theorem assembleRecords_inlineEquate_reused :
    assembleRecords reused = .ok reusedProgram ∧
      assembleRecords
        (inlineEquate ["gap"] (.binary .sub (.symbol "last") (.number 1)) [] reused.tail) =
          .ok reusedProgram := by
  have hcollect : collectSymbols 0 {} reused = .ok (symbolTable reused) := rfl
  have hpass : assembleFrom (symbolTable reused) 0 none reused =
      .ok (reusedProgram.code, some 0) := by cbv
  have h : assembleRecords reused = .ok reusedProgram :=
    bind_eq_ok_iff.mpr ⟨_, hcollect, bind_eq_ok_iff.mpr ⟨_, hpass, rfl⟩⟩
  have hsplit : reused = [] ++
      ⟨["gap"], some 1, .equate (.binary .sub (.symbol "last") (.number 1))⟩ :: reused.tail := rfl
  exact ⟨h, assembleRecords_inlineEquate (hsplit ▸ h)⟩

end Source

end CoreWar
