import CoreWar.Proofs.Assembly
import CoreWar.Proofs.Loading

namespace CoreWar

namespace Core

theorem offset_of_reaches {core : Core} (h : core.Sound) {window : Window} {value : Int64}
    (hreach : Window.Reaches (core.distance window) value.toInt) :
    (core.offset window value : Int) =
      if value.toInt < 0 then value.toInt + core.size else value.toInt := by
  have hle := h.distance_le window
  have hfold : Window.fold (core.distance window) value.toInt = value.toInt := hreach.fold_eq rfl
  rw [offset, Window.offset_eq_fold (h.distance_pos window) hle h.size_lt, hfold,
    hreach.emod_eq hle]

theorem advance_offset {core : Core} (h : core.Sound) {window : Window} {i j : Nat}
    (hreach : Window.Reaches (core.distance window) ((j : Int) - i)) (base : Nat) :
    core.advance (core.advance base i) (core.offset window (.ofInt ((j : Int) - i))) =
      core.advance base j := by
  have hle := h.distance_le window
  have hsize := h.size_lt
  have hword : (Int64.ofInt ((j : Int) - i)).toInt = (j : Int) - i := by
    obtain ⟨hlow, hhigh⟩ := hreach
    exact Int64.toInt_ofInt_of_le (by omega) (by omega)
  have hoffset := offset_of_reaches h (hword.symm ▸ hreach)
  rw [hword] at hoffset
  rw [advance_advance]
  by_cases hback : (j : Int) - i < 0
  · rw [if_pos hback] at hoffset
    have hsum : base + (i + core.offset window (.ofInt ((j : Int) - i))) =
        base + j + core.size := by omega
    rw [advance, hsum, Nat.add_mod_right]
    rfl
  · rw [if_neg hback] at hoffset
    have hsum : i + core.offset window (.ofInt ((j : Int) - i)) = j := by omega
    rw [hsum]

theorem resolve_direct {core : Core} {pc : Nat} {field : Field} {value : Int64}
    (h : field.operand (core.fetch pc) = ⟨.direct, value⟩) :
    core.resolve pc field =
      (core.targetAt pc (core.offset .read value, core.offset .write value), core) := by
  rw [resolve, h]

end Core

namespace Source

/-- A name that is a label with `address` instructions before it, or an equate for such a name. -/
inductive Denotes (records : List Record) : String → Nat → Prop
  | label {before after : List Record} {record : Record} {name : String} :
      records = before ++ record :: after → name ∈ record.labels →
      (∀ expr, record.body ≠ .equate expr) → Denotes records name (drafts before).length
  | equate {record : Record} {name other : String} {address : Nat} :
      record ∈ records → name ∈ record.labels → record.body = .equate (.symbol other) →
      Denotes records other address → Denotes records name address

theorem Body.symbol_of_ne_equate {body : Body} (h : ∀ expr, body ≠ .equate expr) (pc : Nat) :
    body.symbol pc = .address pc := by
  cases body with
  | equate expr => exact absurd rfl (h expr)
  | instruction draft | origin expr | finish target => rfl

/-- At each use a label means its distance from there, however many equates are between. -/
theorem Denotes.means {records : List Record} (hnodup : (labels records).Nodup) {name : String}
    {address : Nat} (h : Denotes records name address) (pc : Nat) :
    (symbolTable records).Means pc (.symbol name) (.ofInt ((address : Int) - pc)) := by
  induction h with
  | @label before after record name hrecords hm hbody =>
    apply SymbolTable.Means.address
    rw [get?_symbolTable_iff hnodup]
    exact ⟨before, record, after, hrecords, hm, (Body.symbol_of_ne_equate hbody _).symm⟩
  | @equate record name other address hrecord hm hbody _ ih =>
    refine SymbolTable.Means.equate ?_ ih
    rw [get?_symbolTable_iff hnodup]
    obtain ⟨before, after, hrecords⟩ := List.append_of_mem hrecord
    exact ⟨before, record, after, hrecords, hm, by rw [hbody]; rfl⟩

theorem Gives.operand_eq {records : List Record} {program : Program}
    (h : Gives records program) (hnodup : (labels records).Nodup) {i j : Nat} {draft : Draft}
    {field : Field} {operand : DraftOperand} {name : String}
    (hdraft : (drafts records)[i]? = some draft) (hfield : draft.operand? field = some operand)
    (hmode : operand.mode.getD .direct = .direct) (hexpr : operand.expr = .symbol name)
    (hlabel : Denotes records name j) :
    ∃ insn, program.code[i]? = some insn ∧
      field.operand insn = ⟨.direct, .ofInt ((j : Int) - i)⟩ := by
  obtain ⟨insn, hinsn, hresolves⟩ := h.code i draft hdraft
  have hfills := hresolves.operands field
  rw [hfield] at hfills
  obtain ⟨hfilled, hvalue⟩ := hfills
  rw [hexpr, SymbolTable.evaluate_eq_ok_iff.mpr (hlabel.means hnodup i)] at hvalue
  refine ⟨insn, hinsn, ?_⟩
  rw [hmode] at hfilled
  rw [← hfilled, Except.ok.inj hvalue]

/-- An operand that was written as a label, directly or through equates, leads to the cell of that
label in any core that holds the program, if the distance lies in the window. -/
theorem resolve_reaches_label {records : List Record} {program : Program}
    (hprogram : assembleRecords records = .ok program) {i j : Nat} {draft : Draft} {field : Field}
    {operand : DraftOperand} {name : String} (hdraft : (drafts records)[i]? = some draft)
    (hfield : draft.operand? field = some operand)
    (hmode : operand.mode = none ∨ operand.mode = some .direct)
    (hexpr : operand.expr = .symbol name) (hlabel : Denotes records name j)
    {settings : Settings} (hvalid : settings.validate = .ok ())
    (hsize : settings.coreSize ≤ Core.maxSize) {core : Core}
    (hshape : core.shape = (Core.ofSettings settings).shape) {base : Nat}
    (hheld : ∀ k insn, program.code[k]? = some insn →
      core.fetch ((base + k) % settings.coreSize) = insn) :
    (Window.Reaches settings.readDistance ((j : Int) - i) →
      (core.resolve ((base + i) % settings.coreSize) field).1.read =
        (base + j) % settings.coreSize) ∧
    (Window.Reaches settings.writeDistance ((j : Int) - i) →
      (core.resolve ((base + i) % settings.coreSize) field).1.write =
        (base + j) % settings.coreSize) := by
  have hsound := (Core.sound_ofSettings ((Settings.validate_eq_ok_iff settings).mp hvalid)
    hsize).of_shape_eq hshape
  have hcells : core.size = settings.coreSize := by
    rw [Core.size_eq_of_shape_eq hshape, Core.size_ofSettings]
  have hdirect : operand.mode.getD .direct = .direct := by
    obtain hmode | hmode := hmode <;> rw [hmode] <;> rfl
  have hnodup := (assembles_of_assembleRecords hprogram).labels_nodup
  obtain ⟨insn, hinsn, hoperand⟩ := (gives_of_assembleRecords hprogram).operand_eq hnodup hdraft
    hfield hdirect hexpr hlabel
  rw [← hheld i insn hinsn] at hoperand
  rw [Core.resolve_direct hoperand, ← hcells]
  constructor
  · intro hreach
    have hread : Window.Reaches (core.distance .read) ((j : Int) - i) := by
      rw [Core.distance_eq_of_shape_eq hshape]
      exact hreach
    exact Core.advance_offset hsound hread base
  · intro hreach
    have hwrite : Window.Reaches (core.distance .write) ((j : Int) - i) := by
      rw [Core.distance_eq_of_shape_eq hshape]
      exact hreach
    exact Core.advance_offset hsound hwrite base

/-- The program stands in the last cell and goes on in the first one, where its label is. -/
theorem resolve_reaches_label_around :
    assembleRecords crossReferences = .ok crossReferenced ∧ Denotes crossReferences "step" 1 ∧
    (((Core.ofSettings .duel).storeAll 7 crossReferenced.code).resolve ((7 + 0) % 8) .a).1.read =
      (7 + 1) % 8 ∧
    (((Core.ofSettings .duel).storeAll 7 crossReferenced.code).resolve ((7 + 0) % 8) .a).1.write =
      (7 + 1) % 8 := by
  have hprogram := assembleRecords_crossReferences
  have hsplit : crossReferences = crossReferences.take 3 ++
      ⟨["last"], some 4, .instruction ⟨.dat, none, ⟨some .immediate, .symbol "tail"⟩, none⟩⟩ ::
        crossReferences.drop 4 := rfl
  have hlast : Denotes crossReferences "last" 1 := .label hsplit List.mem_cons_self (by simp)
  have hstep : Denotes crossReferences "step" 1 :=
    .equate (.tail _ (.head _)) List.mem_cons_self rfl hlast
  have hdraft : (drafts crossReferences)[0]? = some
      ⟨.mov, none, ⟨none, .symbol "step"⟩, some ⟨some .indirect, .symbol "last"⟩⟩ := rfl
  have hfield : Draft.operand?
      ⟨.mov, none, ⟨none, .symbol "step"⟩, some ⟨some .indirect, .symbol "last"⟩⟩ .a =
        some ⟨none, .symbol "step"⟩ := rfl
  have hvalid : Settings.duel.validate = .ok () := rfl
  have hheld : ∀ k insn, crossReferenced.code[k]? = some insn →
      ((Core.ofSettings .duel).storeAll 7 crossReferenced.code).fetch
        ((7 + k) % Settings.duel.coreSize) = insn := by
    intro k insn hk
    obtain _ | _ | k := k
    · cases hk; rfl
    · cases hk; rfl
    · cases hk
  obtain ⟨hread, hwrite⟩ := resolve_reaches_label hprogram hdraft hfield (.inl rfl) rfl hstep hvalid
    (by decide) (Core.shape_storeAll _ _ _) hheld
  exact ⟨hprogram, hstep, hread (by decide), hwrite (by decide)⟩

end Source

end CoreWar
