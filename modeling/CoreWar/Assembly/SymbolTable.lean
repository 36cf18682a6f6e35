import CoreWar.Expr
import CoreWar.Source.Error

namespace CoreWar

inductive Symbol where
  | address (address : Nat)
  | equate (expr : Expr)
  deriving DecidableEq

structure SymbolTable where
  entries : List (String × Symbol) := []

namespace SymbolTable

def get? (table : SymbolTable) (name : String) : Option Symbol := table.entries.lookup name

def define (table : SymbolTable) (name : String) (symbol : Symbol) :
    Except SourceError SymbolTable :=
  if (table.get? name).isSome then
    .error (.duplicateSymbol name)
  else
    .ok ⟨(name, symbol) :: table.entries⟩

/-- The entries whose names are not in `expanding`. -/
def unexpanded (table : SymbolTable) (expanding : List String) : List (String × Symbol) :=
  table.entries.filter fun entry => !expanding.contains entry.1

theorem mem_of_lookup {entries : List (String × Symbol)} {name : String} {symbol : Symbol}
    (h : entries.lookup name = some symbol) : (name, symbol) ∈ entries := by
  induction entries with
  | nil => simp at h
  | cons entry entries ih =>
    obtain ⟨key, value⟩ := entry
    rw [List.lookup_cons] at h
    split at h
    · next hk =>
      have hk : name = key := by simpa using hk
      cases h
      subst hk
      exact List.mem_cons_self
    · exact List.mem_cons_of_mem _ (ih h)

theorem length_unexpanded_lt {table : SymbolTable} {name : String} {symbol : Symbol}
    {expanding : List String} (hget : table.get? name = some symbol)
    (hnew : ¬ name ∈ expanding) :
    (table.unexpanded (name :: expanding)).length < (table.unexpanded expanding).length := by
  have hmem := mem_of_lookup hget
  have hfilter : table.unexpanded (name :: expanding)
      = (table.unexpanded expanding).filter fun entry => entry.1 != name := by
    simp only [unexpanded, List.filter_filter]
    congr 1
    funext entry
    by_cases h : entry.1 = name <;> simp [h]
  rw [hfilter]
  have hlt := List.length_filter_lt_length_iff_exists
    (l := table.unexpanded expanding) (p := fun entry => entry.1 != name)
  refine hlt.mpr ⟨(name, symbol), ?_, by simp⟩
  simp [unexpanded, hmem, hnew]

/-- The value of an expression for the instruction at `pc`, within the equates `expanding`. -/
def evaluateIn (table : SymbolTable) (pc : Nat) (expanding : List String) :
    Expr → Except SourceError Int64
  | .number value => .ok value
  | .symbol name =>
    match hget : table.get? name with
    | none => .error (.undefinedSymbol name)
    | some (.address address) => .ok (Int64.ofNat address - Int64.ofNat pc)
    | some (.equate expr) =>
      if hnew : name ∈ expanding then
        .error (.circularEquate name)
      else
        have := length_unexpanded_lt hget hnew
        table.evaluateIn pc (name :: expanding) expr
  | .binary op lhs rhs =>
    match table.evaluateIn pc expanding lhs with
    | .error error => .error error
    | .ok l =>
      match table.evaluateIn pc expanding rhs with
      | .error error => .error error
      | .ok r =>
        match op.apply l r with
        | some value => .ok value
        | none => .error .divisionByZero
termination_by e => ((table.unexpanded expanding).length, sizeOf e)
decreasing_by
  · exact Prod.Lex.left _ _ this
  · exact Prod.Lex.right _ (by simp only [Expr.binary.sizeOf_spec]; omega)
  · exact Prod.Lex.right _ (by simp only [Expr.binary.sizeOf_spec]; omega)

def evaluate (table : SymbolTable) (expr : Expr) (pc : Nat) : Except SourceError Int64 :=
  table.evaluateIn pc [] expr

end SymbolTable

end CoreWar
