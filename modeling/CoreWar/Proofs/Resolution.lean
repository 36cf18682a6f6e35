import CoreWar.Assembly.Resolve
import CoreWar.Instruction.Field
import CoreWar.Proofs.Checks
import CoreWar.Proofs.Equates

namespace CoreWar

theorem Opcode.exists_defaultModifier?_eq (opcode : Opcode) (a b : Mode) :
    ∃ modifier, opcode.defaultModifier? a b = some modifier := by
  cases opcode <;> cases a <;> cases b <;> exact ⟨_, rfl⟩

namespace Draft

def operands (draft : Draft) : List DraftOperand := draft.a :: draft.b.toList

/-- The operand that goes to a field. A lone operand of `DAT` is its B operand. -/
def operand? (draft : Draft) : Field → Option DraftOperand
  | .a => if draft.b = none ∧ draft.opcode = .dat then none else some draft.a
  | .b => if draft.b = none ∧ draft.opcode = .dat then some draft.a else draft.b

theorem mem_operands_iff {draft : Draft} {operand : DraftOperand} :
    operand ∈ draft.operands ↔ ∃ field, draft.operand? field = some operand := by
  rw [operands, List.mem_cons, Option.mem_toList]
  by_cases hlone : draft.b = none ∧ draft.opcode = .dat
  · constructor
    · rintro (rfl | hb)
      · exact ⟨.b, if_pos hlone⟩
      · cases hlone.1.symm.trans hb
    · rintro ⟨field | field, h⟩
      · cases (if_pos hlone).symm.trans h
      · exact .inl (Option.some.inj ((if_pos hlone).symm.trans h)).symm
  · constructor
    · rintro (rfl | hb)
      · exact ⟨.a, if_neg hlone⟩
      · exact ⟨.b, (if_neg hlone).trans hb⟩
    · rintro ⟨field | field, h⟩
      · exact .inl (Option.some.inj ((if_neg hlone).symm.trans h)).symm
      · exact .inr ((if_neg hlone).symm.trans h)

end Draft

namespace SymbolTable

variable {table : SymbolTable} {pc : Nat}

/-- What stands in a field of the instruction at `pc`: the value of what is written, or `#0`. -/
def Fills (table : SymbolTable) (pc : Nat) : Option DraftOperand → Operand → Prop
  | some draft, operand =>
    operand.mode = draft.mode.getD .direct ∧ table.evaluate draft.expr pc = .ok operand.value
  | none, operand => operand = ⟨.immediate, 0⟩

structure Resolves (table : SymbolTable) (pc : Nat) (draft : Draft) (insn : Instruction) :
    Prop where
  opcode : insn.opcode = draft.opcode
  modifier : (draft.modifier <|> draft.opcode.defaultModifier? insn.a.mode insn.b.mode) =
    some insn.modifier
  operands : ∀ field, table.Fills pc (draft.operand? field) (Field.operand field insn)

theorem resolveOperand_eq_ok_iff {draft : DraftOperand} {operand : Operand} :
    table.resolveOperand pc draft = .ok operand ↔ table.Fills pc (some draft) operand := by
  obtain ⟨mode, value⟩ := operand
  rw [resolveOperand, map_eq_ok_iff]
  constructor
  · rintro ⟨result, hvalue, he⟩
    cases he
    exact ⟨rfl, hvalue⟩
  · rintro ⟨rfl, hvalue⟩
    exact ⟨value, hvalue, rfl⟩

theorem resolveOperands_eq_ok_iff {draft : Draft} {a b : Operand} :
    table.resolveOperands pc draft = .ok (a, b) ↔
      table.Fills pc (draft.operand? .a) a ∧ table.Fills pc (draft.operand? .b) b := by
  obtain ⟨opcode, modifier, first, second⟩ := draft
  cases second with
  | some second =>
    simp [resolveOperands, bind_eq_ok_iff, Draft.operand?, pure, Except.pure,
      resolveOperand_eq_ok_iff]
  | none =>
    by_cases hdat : opcode = .dat
    · simp only [resolveOperands, Draft.operand?, hdat, and_self, if_true, map_eq_ok_iff,
        resolveOperand_eq_ok_iff, Prod.mk.injEq]
      constructor
      · rintro ⟨operand, hfills, rfl, rfl⟩
        exact ⟨rfl, hfills⟩
      · rintro ⟨rfl, hfills⟩
        exact ⟨b, hfills, rfl, rfl⟩
    · simp only [resolveOperands, Draft.operand?, hdat, and_false, if_false, map_eq_ok_iff,
        resolveOperand_eq_ok_iff, Prod.mk.injEq]
      constructor
      · rintro ⟨operand, hfills, rfl, rfl⟩
        exact ⟨hfills, rfl⟩
      · rintro ⟨hfills, rfl⟩
        exact ⟨a, hfills, rfl, rfl⟩

theorem resolve_eq_ok_iff {draft : Draft} {insn : Instruction} :
    table.resolve pc draft = .ok insn ↔ table.Resolves pc draft insn := by
  rw [resolve, bind_eq_ok_iff]
  constructor
  · rintro ⟨⟨a, b⟩, hoperands, hmodifier⟩
    rw [resolveOperands_eq_ok_iff] at hoperands
    dsimp only at hmodifier
    split at hmodifier
    · next modifier hm =>
      cases hmodifier
      refine ⟨rfl, hm, ?_⟩
      rintro (_ | _)
      · exact hoperands.1
      · exact hoperands.2
    · cases hmodifier
  · rintro ⟨hopcode, hmodifier, hoperands⟩
    refine ⟨(insn.a, insn.b), resolveOperands_eq_ok_iff.mpr ⟨hoperands .a, hoperands .b⟩, ?_⟩
    dsimp only
    rw [hmodifier, ← hopcode]
    rfl

theorem exists_resolves_iff {draft : Draft} :
    (∃ insn, table.Resolves pc draft insn) ↔
      ∀ operand ∈ draft.operands, ∃ value, table.evaluate operand.expr pc = .ok value := by
  constructor
  · rintro ⟨insn, _, _, hfills⟩ operand hm
    obtain ⟨field, hfield⟩ := Draft.mem_operands_iff.mp hm
    have hfill := hfills field
    rw [hfield] at hfill
    exact ⟨_, hfill.2⟩
  · intro hvalues
    have hfills : ∀ field, ∃ operand, table.Fills pc (draft.operand? field) operand := by
      intro field
      cases hfield : draft.operand? field with
      | none => exact ⟨_, rfl⟩
      | some operand =>
        obtain ⟨value, hvalue⟩ := hvalues operand (Draft.mem_operands_iff.mpr ⟨field, hfield⟩)
        exact ⟨⟨_, value⟩, rfl, hvalue⟩
    obtain ⟨a, ha⟩ := hfills .a
    obtain ⟨b, hb⟩ := hfills .b
    obtain ⟨default, hdefault⟩ := draft.opcode.exists_defaultModifier?_eq a.mode b.mode
    refine ⟨⟨draft.opcode, draft.modifier.getD default, a, b⟩, rfl, ?_, ?_⟩
    · cases hm : draft.modifier <;> simp [hdefault]
    · rintro (_ | _)
      · exact ha
      · exact hb

end SymbolTable

inductive SourceError.IsRecordFault : SourceError → Prop
  | duplicateSymbol (name : String) : IsRecordFault (.duplicateSymbol name)
  | undefinedSymbol (name : String) : IsRecordFault (.undefinedSymbol name)
  | circularEquate (name : String) : IsRecordFault (.circularEquate name)
  | divisionByZero : IsRecordFault .divisionByZero
  | instructionAfterEnd : IsRecordFault .instructionAfterEnd

inductive SourceError.IsBodyFault : SourceError → Prop
  | undefinedSymbol (name : String) : IsBodyFault (.undefinedSymbol name)
  | circularEquate (name : String) : IsBodyFault (.circularEquate name)
  | divisionByZero : IsBodyFault .divisionByZero
  | instructionAfterEnd : IsBodyFault .instructionAfterEnd

theorem SourceError.IsBodyFault.isRecordFault {error : SourceError} (h : error.IsBodyFault) :
    error.IsRecordFault := by
  cases h <;> constructor

namespace SymbolTable

variable {table : SymbolTable} {pc : Nat} {error : SourceError}

theorem isBodyFault_of_evaluate {expr : Expr} (h : table.evaluate expr pc = .error error) :
    error.IsBodyFault := by
  cases lacks_of_evaluate h <;> constructor

theorem isBodyFault_of_resolveOperand {operand : DraftOperand}
    (h : table.resolveOperand pc operand = .error error) : error.IsBodyFault := by
  rw [resolveOperand, map_eq_error_iff] at h
  exact isBodyFault_of_evaluate h

theorem isBodyFault_of_resolveOperands {draft : Draft}
    (h : table.resolveOperands pc draft = .error error) : error.IsBodyFault := by
  unfold resolveOperands at h
  split at h
  · obtain h | ⟨a, _, h⟩ := bind_eq_error_iff.mp h
    · exact isBodyFault_of_resolveOperand h
    · obtain h | ⟨b, _, h⟩ := bind_eq_error_iff.mp h
      · exact isBodyFault_of_resolveOperand h
      · cases h
  · exact isBodyFault_of_resolveOperand (map_eq_error_iff.mp h)
  · exact isBodyFault_of_resolveOperand (map_eq_error_iff.mp h)

/-- Every opcode has a default modifier for any two modes, so that a modifier is never missing. -/
theorem isBodyFault_of_resolve {draft : Draft} (h : table.resolve pc draft = .error error) :
    error.IsBodyFault := by
  rw [resolve] at h
  obtain h | ⟨⟨a, b⟩, _, h⟩ := bind_eq_error_iff.mp h
  · exact isBodyFault_of_resolveOperands h
  · obtain ⟨default, hdefault⟩ := draft.opcode.exists_defaultModifier?_eq a.mode b.mode
    cases hm : draft.modifier <;> simp [hm, hdefault] at h <;> cases h

end SymbolTable

end CoreWar
