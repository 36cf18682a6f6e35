import CoreWar.Proofs.Resolution
import CoreWar.Proofs.Symbols
import Mathlib.Data.List.Forall2

namespace CoreWar

namespace Source

def Body.isFinish : Body → Bool
  | finish _ => true
  | _ => false

def Body.origin? : Body → Option Expr
  | origin expr => some expr
  | _ => none

def Body.target? : Body → Option Expr
  | finish target => target
  | _ => none

def opening (records : List Record) : List Record := records.takeWhile (!·.body.isFinish)

def closing (records : List Record) : List Record := records.dropWhile (!·.body.isFinish)

def origins (records : List Record) : List Expr := (opening records).filterMap (·.body.origin?)

def target? (records : List Record) : Option Expr := (closing records).head?.bind (·.body.target?)

/-- What decides on the start: the target of `END`, or else the last `ORG`. -/
def start? (records : List Record) : Option Expr := target? records <|> (origins records).getLast?

theorem start?_origin_cons (labels : List String) (line : Option Nat) (expr : Expr)
    (records : List Record) :
    start? (⟨labels, line, .origin expr⟩ :: records) = (start? records <|> some expr) := by
  change (target? records <|> (expr :: origins records).getLast?) =
    ((target? records <|> (origins records).getLast?) <|> some expr)
  rw [List.getLast?_cons]
  cases target? records <;> cases (origins records).getLast? <;> rfl

theorem refuseInstructions_eq_ok_iff {records : List Record} :
    refuseInstructions records = .ok () ↔ drafts records = [] := by
  induction records with
  | nil => simp [refuseInstructions, drafts]
  | cons record records ih =>
    obtain ⟨labels, line, body⟩ := record
    cases body with
    | instruction draft => simp [refuseInstructions, Body.isInstruction, drafts, Body.draft?]
    | origin expr | finish target | equate expr => exact ih

def StartsAt (table : SymbolTable) (expr? : Option Expr) (fallback start : Option Int64) : Prop :=
  match expr? with
  | some expr => ∃ value, table.evaluate expr 0 = .ok value ∧ start = some value
  | none => start = fallback

/-- What the second pass makes of records of which the first instruction has address `pc`. -/
structure Yields (table : SymbolTable) (pc : Nat) (fallback : Option Int64) (records : List Record)
    (code : List Instruction) (start : Option Int64) : Prop where
  ended : drafts (closing records) = []
  code : List.Forall₂ (fun (draft, address) insn => table.Resolves address draft insn)
    ((drafts records).zipIdx pc) code
  origins : ∀ expr ∈ origins records, ∃ value, table.evaluate expr 0 = .ok value
  start : StartsAt table (start? records) fallback start

section

variable {table : SymbolTable} {pc : Nat} {fallback start : Option Int64} {labels : List String}
  {line : Option Nat} {records : List Record} {code : List Instruction}

theorem yields_instruction_iff {draft : Draft} :
    Yields table pc fallback (⟨labels, line, .instruction draft⟩ :: records) code start ↔
      ∃ insn rest, table.Resolves pc draft insn ∧
        Yields table (pc + 1) fallback records rest start ∧ code = insn :: rest := by
  constructor
  · rintro ⟨hended, hcode, horigins, hstart⟩
    obtain ⟨insn, rest, hinsn, hrest, rfl⟩ := List.forall₂_cons_left_iff.mp hcode
    exact ⟨insn, rest, hinsn, ⟨hended, hrest, horigins, hstart⟩, rfl⟩
  · rintro ⟨insn, rest, hinsn, ⟨hended, hcode, horigins, hstart⟩, rfl⟩
    exact ⟨hended, .cons hinsn hcode, horigins, hstart⟩

theorem yields_origin_iff {expr : Expr} :
    Yields table pc fallback (⟨labels, line, .origin expr⟩ :: records) code start ↔
      ∃ value, table.evaluate expr 0 = .ok value ∧
        Yields table pc (some value) records code start := by
  have hstarts : ∀ value, table.evaluate expr 0 = .ok value →
      (StartsAt table (start? (⟨labels, line, .origin expr⟩ :: records)) fallback start ↔
        StartsAt table (start? records) (some value) start) := by
    intro value hvalue
    rw [start?_origin_cons]
    cases start? records with
    | some other => rfl
    | none => simp [StartsAt, hvalue]
  constructor
  · rintro ⟨hended, hcode, horigins, hstart⟩
    obtain ⟨hexpr, horigins⟩ := List.forall_mem_cons.mp horigins
    obtain ⟨value, hvalue⟩ := hexpr
    exact ⟨value, hvalue, hended, hcode, horigins, (hstarts value hvalue).mp hstart⟩
  · rintro ⟨value, hvalue, hended, hcode, horigins, hstart⟩
    exact ⟨hended, hcode, List.forall_mem_cons.mpr ⟨⟨value, hvalue⟩, horigins⟩,
      (hstarts value hvalue).mpr hstart⟩

theorem yields_finish_iff {target : Option Expr} :
    Yields table pc fallback (⟨labels, line, .finish target⟩ :: records) code start ↔
      drafts records = [] ∧ code = [] ∧ StartsAt table target fallback start := by
  have hstart : start? (⟨labels, line, .finish target⟩ :: records) = target := by
    cases target <;> rfl
  constructor
  · rintro ⟨hended, hcode, _, hs⟩
    have hdrafts : drafts records = [] := hended
    rw [show drafts (⟨labels, line, .finish target⟩ :: records) = [] from hended] at hcode
    rw [hstart] at hs
    exact ⟨hdrafts, List.forall₂_nil_left_iff.mp hcode, hs⟩
  · rintro ⟨hdrafts, rfl, hs⟩
    have hended : drafts (⟨labels, line, .finish target⟩ :: records) = [] := hdrafts
    refine ⟨hended, ?_, fun _ hm => absurd hm List.not_mem_nil, ?_⟩
    · rw [hended]
      exact .nil
    · rw [hstart]
      exact hs

end

/-- The second pass makes what it should of the records, or nothing. -/
theorem assembleFrom_eq_ok_iff {table : SymbolTable} {pc : Nat} {fallback start : Option Int64}
    {records : List Record} {code : List Instruction} :
    assembleFrom table pc fallback records = .ok (code, start) ↔
      Yields table pc fallback records code start := by
  induction records generalizing pc fallback code with
  | nil =>
    constructor
    · rintro ⟨⟩
      exact ⟨rfl, .nil, fun _ hm => absurd hm List.not_mem_nil, rfl⟩
    · rintro ⟨_, hcode, _, rfl⟩
      cases hcode
      rfl
  | cons record records ih =>
    obtain ⟨labels, line, body⟩ := record
    cases body with
    | instruction draft =>
      rw [yields_instruction_iff, assembleFrom, bind_eq_ok_iff]
      simp only [mapError_eq_ok_iff, SymbolTable.resolve_eq_ok_iff]
      constructor
      · rintro ⟨insn, hinsn, hbind⟩
        obtain ⟨⟨rest, _⟩, hrest, he⟩ := bind_eq_ok_iff.mp hbind
        cases he
        exact ⟨insn, rest, hinsn, ih.mp hrest, rfl⟩
      · rintro ⟨insn, rest, hinsn, hrest, rfl⟩
        exact ⟨insn, hinsn, bind_eq_ok_iff.mpr ⟨(rest, start), ih.mpr hrest, rfl⟩⟩
    | origin expr =>
      rw [yields_origin_iff, assembleFrom, bind_eq_ok_iff]
      simp only [mapError_eq_ok_iff, ih]
    | finish target =>
      rw [yields_finish_iff]
      cases target with
      | none =>
        rw [assembleFrom, check_eq_ok_iff, refuseInstructions_eq_ok_iff]
        constructor
        · rintro ⟨hdrafts, he⟩
          cases he
          exact ⟨hdrafts, rfl, rfl⟩
        · rintro ⟨hdrafts, rfl, rfl⟩
          exact ⟨hdrafts, rfl⟩
      | some expr =>
        rw [assembleFrom, bind_eq_ok_iff]
        simp only [mapError_eq_ok_iff, check_eq_ok_iff, refuseInstructions_eq_ok_iff]
        constructor
        · rintro ⟨value, hvalue, hdrafts, he⟩
          cases he
          exact ⟨hdrafts, rfl, value, hvalue, rfl⟩
        · rintro ⟨hdrafts, rfl, value, hvalue, rfl⟩
          exact ⟨value, hvalue, hdrafts, rfl⟩
    | equate expr =>
      rw [assembleFrom, ih]
      exact ⟨fun h => ⟨h.ended, h.code, h.origins, h.start⟩,
        fun h => ⟨h.ended, h.code, h.origins, h.start⟩⟩

theorem ofCode_eq_ok_iff {code : List Instruction} {start : Int64} {program : Program} :
    Program.ofCode code start = .ok program ↔
      program.code = code ∧ (program.start : Int) = start.toInt ∧ program.metadata = {} := by
  rw [Program.ofCode]
  constructor
  · intro h
    split at h
    · next hrange =>
      cases h
      have hpos : 0 ≤ start.toInt := Int64.le_iff_toInt_le.mp hrange.1
      exact ⟨rfl, Int.toNat_of_nonneg hpos, rfl⟩
    · cases h
  · obtain ⟨code', first, metadata, hlt⟩ := program
    dsimp only
    rintro ⟨rfl, hstart, rfl⟩
    have hnat : start.toInt.toNat = first := by omega
    have hpos : 0 ≤ start := by
      rw [Int64.le_iff_toInt_le, ← hstart]
      exact Int.natCast_nonneg first
    rw [dif_pos ⟨hpos, by omega⟩]
    simp only [hnat]

theorem assembleRecords_eq_ok_iff {records : List Record} {program : Program} :
    assembleRecords records = .ok program ↔
      (labels records).Nodup ∧ ∃ start,
        Yields (symbolTable records) 0 none records program.code start ∧
        (program.start : Int) = (start.getD 0).toInt ∧ program.metadata = {} := by
  rw [assembleRecords, bind_eq_ok_iff]
  simp only [collectSymbols_eq_symbolTable_iff]
  constructor
  · rintro ⟨table, ⟨hnodup, rfl⟩, hpass⟩
    obtain ⟨⟨code, start⟩, hyields, hprogram⟩ := bind_eq_ok_iff.mp hpass
    obtain ⟨rfl, hstart, hmetadata⟩ := ofCode_eq_ok_iff.mp hprogram
    exact ⟨hnodup, start, assembleFrom_eq_ok_iff.mp hyields, hstart, hmetadata⟩
  · rintro ⟨hnodup, start, hyields, hstart, hmetadata⟩
    refine ⟨_, ⟨hnodup, rfl⟩, bind_eq_ok_iff.mpr ⟨_, assembleFrom_eq_ok_iff.mpr hyields, ?_⟩⟩
    exact ofCode_eq_ok_iff.mpr ⟨rfl, hstart, hmetadata⟩

def StartValue (records : List Record) (start : Int64) : Prop :=
  match start? records with
  | some expr => (symbolTable records).evaluate expr 0 = .ok start
  | none => start = 0

structure Assembles (records : List Record) : Prop where
  labels_nodup : (labels records).Nodup
  ended : drafts (closing records) = []
  operands : ∀ i draft, (drafts records)[i]? = some draft → ∀ operand ∈ draft.operands,
    ∃ value, (symbolTable records).evaluate operand.expr i = .ok value
  origins : ∀ expr ∈ origins records, ∃ value, (symbolTable records).evaluate expr 0 = .ok value
  target : ∀ expr ∈ target? records, ∃ value, (symbolTable records).evaluate expr 0 = .ok value
  start : ∃ start, StartValue records start ∧
    0 ≤ start.toInt ∧ start.toInt < (drafts records).length

structure Gives (records : List Record) (program : Program) : Prop where
  length_eq : program.code.length = (drafts records).length
  code : ∀ i draft, (drafts records)[i]? = some draft →
    ∃ insn, program.code[i]? = some insn ∧ (symbolTable records).Resolves i draft insn
  start : ∃ start, StartValue records start ∧ (program.start : Int) = start.toInt
  metadata_eq : program.metadata = {}

section

variable {table : SymbolTable} {pc : Nat}

theorem resolvedAll_iff {drafts : List Draft} {code : List Instruction} :
    List.Forall₂ (fun (draft, address) insn => table.Resolves address draft insn)
        (drafts.zipIdx pc) code ↔
      code.length = drafts.length ∧ ∀ i draft, drafts[i]? = some draft →
        ∃ insn, code[i]? = some insn ∧ table.Resolves (pc + i) draft insn := by
  induction drafts generalizing pc code with
  | nil => simp [List.forall₂_nil_left_iff]
  | cons first drafts ih =>
    rw [List.zipIdx_cons, List.forall₂_cons_left_iff]
    constructor
    · rintro ⟨insn, rest, hinsn, hrest, rfl⟩
      obtain ⟨hlength, hall⟩ := ih.mp hrest
      refine ⟨congrArg (· + 1) hlength, ?_⟩
      intro i draft hi
      cases i with
      | zero =>
        cases hi
        exact ⟨insn, rfl, hinsn⟩
      | succ i =>
        rw [← Nat.add_assoc, Nat.add_right_comm]
        exact hall i draft hi
    · rintro ⟨hlength, hall⟩
      cases code with
      | nil => cases hlength
      | cons insn rest =>
        obtain ⟨_, he, hinsn⟩ := hall 0 first rfl
        cases he
        refine ⟨insn, rest, hinsn, ih.mpr ⟨Nat.succ.inj hlength, ?_⟩, rfl⟩
        intro i draft hi
        rw [Nat.add_right_comm, Nat.add_assoc]
        exact hall (i + 1) draft hi

theorem startValue_of_startsAt {records : List Record} {start : Option Int64}
    (h : StartsAt (symbolTable records) (start? records) none start) :
    StartValue records (start.getD 0) := by
  unfold StartsAt at h
  unfold StartValue
  split at h
  · obtain ⟨value, hvalue, rfl⟩ := h
    exact hvalue
  · rw [h]
    rfl

end

theorem gives_of_assembleRecords {records : List Record} {program : Program}
    (h : assembleRecords records = .ok program) : Gives records program := by
  obtain ⟨_, start, hyields, hstart, hmetadata⟩ := assembleRecords_eq_ok_iff.mp h
  obtain ⟨hlength, hcode⟩ := resolvedAll_iff.mp hyields.code
  simp only [Nat.zero_add] at hcode
  exact ⟨hlength, hcode, ⟨_, startValue_of_startsAt hyields.start, hstart⟩, hmetadata⟩

theorem assembles_of_assembleRecords {records : List Record} {program : Program}
    (h : assembleRecords records = .ok program) : Assembles records := by
  have hgives := gives_of_assembleRecords h
  obtain ⟨hnodup, start, hyields, hstart, _⟩ := assembleRecords_eq_ok_iff.mp h
  refine ⟨hnodup, hyields.ended, ?_, hyields.origins, ?_, ?_⟩
  · intro i draft hi
    obtain ⟨insn, _, hinsn⟩ := hgives.code i draft hi
    exact SymbolTable.exists_resolves_iff.mp ⟨insn, hinsn⟩
  · intro expr hexpr
    have hdecides : start? records = some expr := by
      rw [start?, Option.mem_def.mp hexpr]
      rfl
    have hvalue := hyields.start
    rw [hdecides] at hvalue
    obtain ⟨value, hvalue, _⟩ := hvalue
    exact ⟨value, hvalue⟩
  · have hlt := program.start_lt
    rw [hgives.length_eq] at hlt
    exact ⟨_, startValue_of_startsAt hyields.start, by omega, by omega⟩

section

variable {table : SymbolTable} {pc : Nat} {error : SourceError}

/-- The error is a fault of one of the records, located at its line. -/
def FaultIn (kind : SourceError → Prop) (records : List Record) (error : SourceError) : Prop :=
  ∃ record ∈ records, ∃ cause : SourceError, kind cause ∧ cause.locate record.line = error

theorem FaultIn.mono {kind other : SourceError → Prop} {records : List Record}
    (h : FaultIn kind records error) (hkind : ∀ {cause}, kind cause → other cause) :
    FaultIn other records error := by
  obtain ⟨record, hm, cause, hcause, he⟩ := h
  exact ⟨record, hm, cause, hkind hcause, he⟩

theorem FaultIn.cons {kind : SourceError → Prop} {records : List Record}
    (h : FaultIn kind records error) (record : Record) :
    FaultIn kind (record :: records) error := by
  obtain ⟨faulty, hm, hcause⟩ := h
  exact ⟨faulty, List.mem_cons_of_mem record hm, hcause⟩

theorem faultIn_of_mapError {α : Type} {x : Except SourceError α} {kind : SourceError → Prop}
    {record : Record} {records : List Record} (hx : ∀ cause, x = .error cause → kind cause)
    (h : x.mapError (·.locate record.line) = .error error) :
    FaultIn kind (record :: records) error := by
  obtain ⟨cause, hcause, he⟩ := mapError_eq_error_iff.mp h
  exact ⟨record, List.mem_cons_self, cause, hx cause hcause, he⟩

theorem faultIn_of_collectSymbols {records : List Record}
    (h : collectSymbols 0 {} records = .error error) :
    FaultIn SourceError.IsRecordFault records error := by
  obtain ⟨before, name, line, hrepeat, rfl⟩ := exists_firstRepeat h
  obtain ⟨after, hsplit⟩ := hrepeat.exists_after
  have hm : (name, line) ∈ attachments records := by simp [hsplit]
  obtain ⟨record, hrecord, hlabel⟩ := List.mem_flatMap.mp hm
  obtain ⟨_, _, he⟩ := List.mem_map.mp hlabel
  cases he
  exact ⟨record, hrecord, _, .duplicateSymbol name, rfl⟩

theorem faultIn_of_refuseInstructions {records : List Record}
    (h : refuseInstructions records = .error error) :
    FaultIn SourceError.IsBodyFault records error := by
  induction records with
  | nil => cases h
  | cons record records ih =>
    rw [refuseInstructions] at h
    split at h
    · cases h
      exact ⟨record, List.mem_cons_self, _, .instructionAfterEnd, rfl⟩
    · exact (ih h).cons record

theorem faultIn_of_assembleFrom {start : Option Int64} {records : List Record}
    (h : assembleFrom table pc start records = .error error) :
    FaultIn SourceError.IsBodyFault records error := by
  induction records generalizing pc start with
  | nil => cases h
  | cons record records ih =>
    obtain ⟨labels, line, body⟩ := record
    cases body with
    | instruction draft =>
      rw [assembleFrom] at h
      obtain h | ⟨insn, _, h⟩ := bind_eq_error_iff.mp h
      · exact faultIn_of_mapError (fun _ => SymbolTable.isBodyFault_of_resolve) h
      · obtain h | ⟨rest, _, h⟩ := bind_eq_error_iff.mp h
        · exact (ih h).cons _
        · cases h
    | origin expr =>
      rw [assembleFrom] at h
      obtain h | ⟨value, _, h⟩ := bind_eq_error_iff.mp h
      · exact faultIn_of_mapError (fun _ => SymbolTable.isBodyFault_of_evaluate) h
      · exact (ih h).cons _
    | finish target =>
      cases target with
      | none =>
        rw [assembleFrom] at h
        obtain h | ⟨_, _, h⟩ := bind_eq_error_iff.mp h
        · exact (faultIn_of_refuseInstructions h).cons _
        · cases h
      | some expr =>
        rw [assembleFrom] at h
        obtain h | ⟨value, _, h⟩ := bind_eq_error_iff.mp h
        · exact faultIn_of_mapError (fun _ => SymbolTable.isBodyFault_of_evaluate) h
        · obtain h | ⟨_, _, h⟩ := bind_eq_error_iff.mp h
          · exact (faultIn_of_refuseInstructions h).cons _
          · cases h
    | equate expr =>
      rw [assembleFrom] at h
      exact (ih h).cons _

/-- All that can be wrong with records is a fault of one of them, or where the program starts. -/
theorem assembleRecords_eq_error {records : List Record}
    (h : assembleRecords records = .error error) :
    FaultIn SourceError.IsRecordFault records error ∨
      ∃ start length, error = .startOutOfRange start length := by
  rw [assembleRecords] at h
  obtain h | ⟨table, _, h⟩ := bind_eq_error_iff.mp h
  · exact .inl (faultIn_of_collectSymbols h)
  · obtain h | ⟨⟨code, start⟩, _, h⟩ := bind_eq_error_iff.mp h
    · exact .inl ((faultIn_of_assembleFrom h).mono (·.isRecordFault))
    · right
      dsimp only at h
      rw [Program.ofCode] at h
      split at h
      · cases h
      · cases h
        exact ⟨_, _, rfl⟩

theorem root_locate (error : SourceError) (line : Option Nat) :
    (error.locate line).root = error.root := by
  cases error <;> cases line <;> rfl

end

/-- An equate for a label that stands further down, a label after `END`, and an `ORG` that `END`
overrules. -/
def crossReferences : List Record :=
  [⟨["start"], some 1,
      .instruction ⟨.mov, none, ⟨none, .symbol "step"⟩, some ⟨some .indirect, .symbol "last"⟩⟩⟩,
    ⟨["step"], some 2, .equate (.symbol "last")⟩,
    ⟨[], some 3, .origin (.number 7)⟩,
    ⟨["last"], some 4, .instruction ⟨.dat, none, ⟨some .immediate, .symbol "tail"⟩, none⟩⟩,
    ⟨[], some 5, .finish (some (.symbol "last"))⟩,
    ⟨["tail"], none, .origin (.symbol "nowhere")⟩]

def crossReferenced : Program where
  code := [⟨.mov, .i, ⟨.direct, 1⟩, ⟨.indirect, 1⟩⟩, ⟨.dat, .f, ⟨.immediate, 0⟩, ⟨.immediate, 1⟩⟩]
  start := 1
  start_lt := by decide

theorem assembleRecords_crossReferences :
    assembleRecords crossReferences = .ok crossReferenced := by
  have hcollect : collectSymbols 0 {} crossReferences = .ok (symbolTable crossReferences) := rfl
  have hpass : assembleFrom (symbolTable crossReferences) 0 none crossReferences =
      .ok (crossReferenced.code, some 1) := by cbv
  exact bind_eq_ok_iff.mpr ⟨_, hcollect, bind_eq_ok_iff.mpr ⟨_, hpass, rfl⟩⟩

end Source

end CoreWar
