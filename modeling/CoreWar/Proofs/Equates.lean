import CoreWar.Assembly.SymbolTable
import Mathlib.Logic.Relation

namespace CoreWar.SymbolTable

open Relation

variable {table : SymbolTable} {pc : Nat}

/-- What an expression means for the instruction at `pc`. -/
inductive Means (table : SymbolTable) (pc : Nat) : Expr → Int64 → Prop
  | number (value : Int64) : Means table pc (.number value) value
  | address {name : String} {address : Nat} :
      table.get? name = some (.address address) →
      Means table pc (.symbol name) (.ofInt ((address : Int) - pc))
  | equate {name : String} {expr : Expr} {value : Int64} :
      table.get? name = some (.equate expr) → Means table pc expr value →
      Means table pc (.symbol name) value
  | binary {op : Operator} {lhs rhs : Expr} {l r value : Int64} :
      Means table pc lhs l → Means table pc rhs r → op.apply l r = some value →
      Means table pc (.binary op lhs rhs) value

/-- The value of an expression needs the value of another one. -/
inductive Needs (table : SymbolTable) : Expr → Expr → Prop
  | lhs (op : Operator) (lhs rhs : Expr) : Needs table (.binary op lhs rhs) lhs
  | rhs (op : Operator) (lhs rhs : Expr) : Needs table (.binary op lhs rhs) rhs
  | equate {name : String} {expr : Expr} :
      table.get? name = some (.equate expr) → Needs table (.symbol name) expr

theorem Means.acc {expr : Expr} {value : Int64} (h : table.Means pc expr value) :
    Acc (fun part whole => table.Needs whole part) expr := by
  induction h with
  | number value =>
    constructor
    rintro part ⟨⟩
  | address hget =>
    constructor
    intro part hn
    cases hn with
    | equate hequate => cases hget.symm.trans hequate
  | equate hget _ ih =>
    constructor
    intro part hn
    cases hn with
    | equate hequate =>
      cases hget.symm.trans hequate
      exact ih
  | binary _ _ _ ihl ihr =>
    constructor
    intro part hn
    cases hn with
    | lhs => exact ihl
    | rhs => exact ihr

theorem not_needs_itself {expr : Expr} (h : Acc (fun part whole => table.Needs whole part) expr) :
    ¬ TransGen table.Needs expr expr := by
  induction h with
  | intro expr _ ih =>
    intro hcycle
    obtain ⟨part, hfirst, hback⟩ := TransGen.head'_iff.mp hcycle
    exact ih part hfirst (TransGen.tail' hback hfirst)

theorem Means.not_needs_name {name : String} {expr : Expr} {value : Int64}
    (h : table.Means pc expr value) (hget : table.get? name = some (.equate expr)) :
    ¬ ReflTransGen table.Needs expr (.symbol name) := by
  intro hback
  have hmeans : table.Means pc (.symbol name) value := .equate hget h
  exact not_needs_itself hmeans.acc (TransGen.head' (.equate hget) hback)

theorem ofInt_sub_eq (address pc : Nat) :
    Int64.ofInt ((address : Int) - pc) = Int64.ofNat address - Int64.ofNat pc := by
  rw [Int64.ofInt_sub, Int64.ofInt_eq_ofNat, Int64.ofInt_eq_ofNat]

theorem evaluateIn_address {expanding : List String} {name : String} {address : Nat}
    (h : table.get? name = some (.address address)) :
    table.evaluateIn pc expanding (.symbol name) = .ok (.ofInt ((address : Int) - pc)) := by
  rw [evaluateIn, ofInt_sub_eq]
  split <;> simp_all

theorem evaluateIn_equate {expanding : List String} {name : String} {expr : Expr}
    (h : table.get? name = some (.equate expr)) (hnew : name ∉ expanding) :
    table.evaluateIn pc expanding (.symbol name) =
      table.evaluateIn pc (name :: expanding) expr := by
  rw [evaluateIn]
  split <;> simp_all

theorem means_of_evaluateIn {expanding : List String} {expr : Expr} {value : Int64}
    (h : table.evaluateIn pc expanding expr = .ok value) : table.Means pc expr value := by
  fun_induction evaluateIn table pc expanding expr generalizing value with
  | case1 expanding number =>
    cases h
    exact .number _
  | case2 => cases h
  | case3 expanding name address hget =>
    cases h
    rw [← ofInt_sub_eq]
    exact .address hget
  | case4 => cases h
  | case5 expanding name expr hget hnew hlt ih => exact .equate hget (ih h)
  | case6 => cases h
  | case7 => cases h
  | case8 expanding op lhs rhs l hl r hr result hop ihl ihr =>
    cases h
    exact .binary (ihl hl) (ihr hr) hop
  | case9 => cases h

/-- No equate that is being expanded is needed again, so evaluation never stops short of a
meaning. -/
theorem Means.evaluateIn_eq {expr : Expr} {value : Int64} (h : table.Means pc expr value)
    {expanding : List String}
    (hnew : ∀ name ∈ expanding, ¬ ReflTransGen table.Needs expr (.symbol name)) :
    table.evaluateIn pc expanding expr = .ok value := by
  induction h generalizing expanding with
  | number value => rw [evaluateIn]
  | address hget => exact evaluateIn_address hget
  | @equate name expr value hget hmeans ih =>
    have hfresh : name ∉ expanding := fun hm => hnew name hm .refl
    have hrest : ∀ other ∈ name :: expanding, ¬ ReflTransGen table.Needs expr (.symbol other) := by
      intro other ho hneeds
      obtain rfl | ho := List.mem_cons.mp ho
      · exact hmeans.not_needs_name hget hneeds
      · exact hnew other ho (.head (.equate hget) hneeds)
    rw [evaluateIn_equate hget hfresh]
    exact ih hrest
  | @binary op lhs rhs l r value _ _ hop ihl ihr =>
    have hl := ihl fun name hm hneeds => hnew name hm (.head (.lhs op lhs rhs) hneeds)
    have hr := ihr fun name hm hneeds => hnew name hm (.head (.rhs op lhs rhs) hneeds)
    rw [evaluateIn, hl, hr]
    simp only [hop]

theorem evaluate_eq_ok_iff {expr : Expr} {value : Int64} :
    table.evaluate expr pc = .ok value ↔ table.Means pc expr value :=
  ⟨means_of_evaluateIn, fun h => h.evaluateIn_eq fun _ hm => absurd hm List.not_mem_nil⟩

/-- Why an expression has no meaning. -/
inductive Lacks (table : SymbolTable) (pc : Nat) (expr : Expr) : SourceError → Prop
  | undefinedSymbol {name : String} : ReflTransGen table.Needs expr (.symbol name) →
      table.get? name = none → Lacks table pc expr (.undefinedSymbol name)
  | circularEquate {name : String} : ReflTransGen table.Needs expr (.symbol name) →
      TransGen table.Needs (.symbol name) (.symbol name) →
      Lacks table pc expr (.circularEquate name)
  | divisionByZero {op : Operator} {lhs rhs : Expr} {l r : Int64} :
      ReflTransGen table.Needs expr (.binary op lhs rhs) → table.Means pc lhs l →
      table.Means pc rhs r → op.apply l r = none → Lacks table pc expr .divisionByZero

theorem Lacks.of_needs {expr part : Expr} {error : SourceError} (hneeds : table.Needs expr part)
    (h : table.Lacks pc part error) : table.Lacks pc expr error := by
  cases h with
  | undefinedSymbol hreach hget => exact .undefinedSymbol (.head hneeds hreach) hget
  | circularEquate hreach hcycle => exact .circularEquate (.head hneeds hreach) hcycle
  | divisionByZero hreach hl hr hop => exact .divisionByZero (.head hneeds hreach) hl hr hop

/-- Each equate that is being expanded needs the expression at hand. So one that comes up again
needs itself. -/
theorem lacks_of_evaluateIn {expanding : List String} {expr : Expr} {error : SourceError}
    (hinside : ∀ name ∈ expanding, TransGen table.Needs (.symbol name) expr)
    (h : table.evaluateIn pc expanding expr = .error error) : table.Lacks pc expr error := by
  fun_induction evaluateIn table pc expanding expr generalizing error with
  | case1 => cases h
  | case2 expanding name hget =>
    cases h
    exact .undefinedSymbol .refl hget
  | case3 => cases h
  | case4 expanding name expr hget hold =>
    cases h
    exact .circularEquate .refl (hinside name hold)
  | case5 expanding name expr hget hnew hlt ih =>
    have hneeds : table.Needs (.symbol name) expr := .equate hget
    refine .of_needs hneeds (ih ?_ h)
    intro other ho
    obtain rfl | ho := List.mem_cons.mp ho
    · exact .single hneeds
    · exact (hinside other ho).tail hneeds
  | case6 expanding op lhs rhs fault hl ih =>
    have hneeds : table.Needs (.binary op lhs rhs) lhs := .lhs op lhs rhs
    cases h
    exact .of_needs hneeds (ih (fun name hm => (hinside name hm).tail hneeds) hl)
  | case7 expanding op lhs rhs l hl fault hr _ ih =>
    have hneeds : table.Needs (.binary op lhs rhs) rhs := .rhs op lhs rhs
    cases h
    exact .of_needs hneeds (ih (fun name hm => (hinside name hm).tail hneeds) hr)
  | case8 => cases h
  | case9 expanding op lhs rhs l hl r hr hop =>
    cases h
    exact .divisionByZero .refl (means_of_evaluateIn hl) (means_of_evaluateIn hr) hop

theorem lacks_of_evaluate {expr : Expr} {error : SourceError}
    (h : table.evaluate expr pc = .error error) : table.Lacks pc expr error :=
  lacks_of_evaluateIn (fun _ hm => absurd hm List.not_mem_nil) h

/-- Evaluation always ends. It gives the value that an expression means, and otherwise it names an
equate that leads back to itself, a symbol that is not in the table, or a division by zero, each of
which the expression needs. -/
theorem evaluate_exact (table : SymbolTable) (expr : Expr) (pc : Nat) :
    (∀ value, table.evaluate expr pc = .ok value ↔ table.Means pc expr value) ∧
    (∀ name, table.evaluate expr pc = .error (.circularEquate name) →
      ReflTransGen table.Needs expr (.symbol name) ∧
      ∃ body, table.get? name = some (.equate body) ∧
        ReflTransGen table.Needs body (.symbol name)) ∧
    (∀ name, table.evaluate expr pc = .error (.undefinedSymbol name) →
      ReflTransGen table.Needs expr (.symbol name) ∧ table.get? name = none) ∧
    ∀ error, table.evaluate expr pc = .error error →
      (∃ name, error = .circularEquate name) ∨ (∃ name, error = .undefinedSymbol name) ∨
      error = .divisionByZero ∧ ∃ op lhs rhs l r,
        ReflTransGen table.Needs expr (.binary op lhs rhs) ∧ table.Means pc lhs l ∧
          table.Means pc rhs r ∧ op.apply l r = none := by
  refine ⟨fun _ => evaluate_eq_ok_iff, ?_, ?_, ?_⟩
  · intro name h
    cases lacks_of_evaluate h with
    | circularEquate hreach hcycle =>
      obtain ⟨body, hneeds, hback⟩ := TransGen.head'_iff.mp hcycle
      cases hneeds with
      | equate hget => exact ⟨hreach, body, hget, hback⟩
  · intro name h
    cases lacks_of_evaluate h with
    | undefinedSymbol hreach hget => exact ⟨hreach, hget⟩
  · intro error h
    cases lacks_of_evaluate h with
    | undefinedSymbol => exact .inr (.inl ⟨_, rfl⟩)
    | circularEquate => exact .inl ⟨_, rfl⟩
    | divisionByZero hreach hl hr hop =>
      exact .inr (.inr ⟨rfl, _, _, _, _, _, hreach, hl, hr, hop⟩)

def knotted : SymbolTable :=
  ⟨[("loop", .address 1), ("back", .equate (.symbol "loop")),
    ("twice", .equate (.binary .add (.symbol "back") (.symbol "back"))),
    ("ping", .equate (.symbol "pong")), ("pong", .equate (.symbol "ping"))]⟩

theorem evaluate_exact_knotted :
    knotted.evaluate (.symbol "twice") 3 = .ok (-4) ∧
    knotted.Means 3 (.symbol "twice") (-4) ∧
    knotted.evaluate (.binary .sub (.symbol "twice") (.symbol "pong")) 3 =
      .error (.circularEquate "pong") ∧
    ReflTransGen knotted.Needs (.binary .sub (.symbol "twice") (.symbol "pong")) (.symbol "pong") := by
  have hvalue : knotted.evaluate (.symbol "twice") 3 = .ok (-4) := by cbv
  have hcycle : knotted.evaluate (.binary .sub (.symbol "twice") (.symbol "pong")) 3 =
      .error (.circularEquate "pong") := by cbv
  exact ⟨hvalue, ((evaluate_exact knotted _ 3).1 _).mp hvalue, hcycle,
    ((evaluate_exact knotted _ 3).2.1 _ hcycle).1⟩

end CoreWar.SymbolTable
