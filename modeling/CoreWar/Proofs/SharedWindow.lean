import CoreWar.Proofs.Arithmetic

namespace CoreWar

structure Instruction.AgreeBeyond (fields : Selection) (first second : Instruction) : Prop where
  form_eq : second.form = first.form
  get_eq : ∀ field ∉ fields, field.get second = field.get first

namespace Decoded

/-- The lanes that have a result if the destination is `cell`, up to the first that has none. -/
def definedLanes (d : Decoded) (op : Operator) (cell : Instruction) : List (Field × Field) :=
  d.insn.modifier.lanes.take <| op.leadingDefined <|
    d.insn.modifier.lanes.map fun lane => (lane.1.get cell, lane.2.get d.a.insn)

/-- Arithmetic on the values that the destination has before. -/
structure Computes (d : Decoded) (op : Operator) (before after : Instruction) : Prop where
  agree : before.AgreeBeyond ((d.definedLanes op before).map Prod.fst) after
  apply_eq : ∀ lane ∈ d.definedLanes op before,
    op.apply (lane.1.get before) (lane.2.get d.a.insn) = some (lane.1.get after)

structure Decrements (d : Decoded) (before after : Instruction) : Prop where
  agree : before.AgreeBeyond d.insn.modifier.target after
  get_eq : ∀ field ∈ d.insn.modifier.target, field.get after = field.get before - 1

end Decoded

theorem Selection.agreeBeyond_write (fields : Selection) (values : List Int64)
    (insn : Instruction) :
    insn.AgreeBeyond (fields.take values.length) (fields.write values insn) :=
  ⟨form_write fields values insn, fun _ h => get_write_of_not_mem h insn⟩

theorem Selection.get_write_map {fields : Selection} (hnodup : fields.Nodup) (f : Int64 → Int64)
    {source : Instruction} (insn : Instruction) {field : Field} (h : field ∈ fields) :
    field.get (fields.write ((fields.read source).map f) insn) = f (field.get source) := by
  have hlength : ((fields.read source).map f).length = fields.length := by
    rw [read, List.length_map, List.length_map]
  have hread := read_write hnodup (Nat.le_of_eq hlength) insn
  rw [hlength, List.take_length] at hread
  have hmaps : fields.map (·.get (fields.write ((fields.read source).map f) insn)) =
      fields.map (f ∘ (·.get source)) := hread.trans List.map_map
  exact List.map_inj_left.mp hmaps field h

namespace Core

section

variable {core : Core}

theorem insn_resolve (core : Core) (pc : Nat) (field : Field) :
    (core.resolve pc field).1.insn =
      (core.resolve pc field).2.fetch (core.resolve pc field).1.read := by
  obtain ⟨offsets, ho⟩ := exists_resolve_eq_targetAt core pc field
  rw [ho]
  rfl

theorem distance_read_of_shape_eq {other : Core} (hs : other.shape = core.shape)
    (h : core.readDistance = core.writeDistance) : other.readDistance = other.writeDistance := by
  have hread : other.readDistance = core.readDistance := distance_eq_of_shape_eq hs .read
  have hwrite : other.writeDistance = core.writeDistance := distance_eq_of_shape_eq hs .write
  rw [hread, hwrite, h]

theorem offset_read_eq (h : core.readDistance = core.writeDistance) (value : Int64) :
    core.offset .read value = core.offset .write value := by
  rw [offset, offset, distance, distance, h]

theorem follow_read_eq (h : core.readDistance = core.writeDistance) (pc offset : Nat) :
    core.follow .read pc offset = core.follow .write pc offset :=
  offset_read_eq h _

theorem followBoth_fst_eq (h : core.readDistance = core.writeDistance) (pc : Nat) (value : Int64) :
    (core.followBoth pc value).1 = (core.followBoth pc value).2 := by
  rw [followBoth, offset_read_eq h, follow_read_eq h]

/-- An operand reads the cell that it writes, whatever its mode. -/
theorem resolve_read_eq (h : core.readDistance = core.writeDistance) (pc : Nat) (field : Field) :
    (core.resolve pc field).1.read = (core.resolve pc field).1.write := by
  unfold resolve
  cases field.operand (core.fetch pc) with
  | mk mode value =>
    cases mode with
    | immediate => rfl
    | direct => exact congrArg (core.advance pc) (offset_read_eq h value)
    | indirect => exact congrArg (core.advance pc) (followBoth_fst_eq h pc value)
    | preDecrement =>
      -- Both ways lead through the decremented cell.
      have hb := distance_read_of_shape_eq (shape_bump core (core.pointerCell pc value) (-1)) h
      exact congrArg (advance _ pc) (followBoth_fst_eq hb pc value)
    | postIncrement => exact congrArg (advance _ pc) (followBoth_fst_eq h pc value)

theorem decode_read_eq (h : core.readDistance = core.writeDistance) (pc : Nat) :
    (core.decode pc).1.a.read = (core.decode pc).1.a.write ∧
      (core.decode pc).1.b.read = (core.decode pc).1.b.write :=
  ⟨resolve_read_eq h pc .a,
    resolve_read_eq (distance_read_of_shape_eq (shape_resolve core pc .a) h) pc .b⟩

theorem insn_decode (h : core.readDistance = core.writeDistance) (pc : Nat) :
    (core.decode pc).1.b.insn = (core.decode pc).2.fetch (core.decode pc).1.b.write := by
  rw [← (decode_read_eq h pc).2]
  exact insn_resolve (core.resolve pc .a).2 pc .b

variable {decoded : Core} {d : Decoded}

theorem computes_computedCell (hfresh : d.b.insn = decoded.fetch d.b.write) (op : Operator) :
    d.Computes op (decoded.fetch d.b.write) (decoded.computedCell d op) := by
  have hlanes : d.definedLanes op (decoded.fetch d.b.write) =
      d.insn.modifier.lanes.take (op.leadingDefined d.pairs) := by
    rw [← hfresh]
    rfl
  constructor
  · rw [hlanes, ← d.take_target, ← op.length_applyAll d.pairs]
    exact Selection.agreeBeyond_write _ _ _
  · intro lane hlane
    rw [hlanes] at hlane
    rw [← hfresh]
    exact get_computedCell_of_mem hlane

theorem decrements_write (hfresh : d.b.insn = decoded.fetch d.b.write) :
    d.Decrements (decoded.fetch d.b.write)
      (d.insn.modifier.target.write (d.target.map (· - 1)) (decoded.fetch d.b.write)) := by
  have hlength : (d.target.map (· - 1)).length = d.insn.modifier.target.length := by
    rw [List.length_map, Decoded.target, Selection.read, List.length_map]
  constructor
  · have hagree := Selection.agreeBeyond_write d.insn.modifier.target (d.target.map (· - 1))
      (decoded.fetch d.b.write)
    rwa [hlength, List.take_length] at hagree
  · intro field hfield
    rw [Decoded.target, hfresh]
    exact Selection.get_write_map (Modifier.nodup_target _) (· - 1) _ hfield

end

/-- With equal windows both operands read the cells that they write. After decoding, the B snapshot
is the cell that will be written, whatever the side effects have done to it. So arithmetic and the
decrement before a jump change one cell, and each field by way of the value that it has. -/
theorem execute_updates_in_place {core decoded : Core} (h : core.Sound)
    (hwindows : core.readDistance = core.writeDistance) {pc : Nat} {d : Decoded}
    (hd : core.decode pc = (d, decoded)) :
    (∀ field, (core.resolve pc field).1.read = (core.resolve pc field).1.write) ∧
    d.a.read = d.a.write ∧ d.b.read = d.b.write ∧ d.b.write < decoded.size ∧
    d.b.insn = decoded.fetch d.b.write ∧
    (∀ op, (core.fetch pc).opcode.operator? = some op →
      ∃ cell, (core.execute pc).2 = decoded.store d.b.write cell ∧
        d.Computes op (decoded.fetch d.b.write) cell) ∧
    ((core.fetch pc).opcode = .djn →
      ∃ cell, (core.execute pc).2 = decoded.store d.b.write cell ∧
        d.Decrements (decoded.fetch d.b.write) cell) := by
  have hreads := decode_read_eq hwindows pc
  have hfresh := insn_decode hwindows pc
  have hwrite := (decode_within h.size_pos pc).write_lt
  have hinsn : core.fetch pc = d.insn := congrArg (·.1.insn) hd
  have hexecute := execute_eq core pc
  rw [← size_decode core pc] at hwrite
  rw [hd] at hreads hfresh hwrite hexecute
  refine ⟨resolve_read_eq hwindows pc, hreads.1, hreads.2, hwrite, hfresh, ?_, ?_⟩
  · intro op hop
    refine ⟨decoded.computedCell d op, ?_, computes_computedCell hfresh op⟩
    rw [execute_of_operator? hop hd]
  · intro hop
    refine ⟨_, ?_, decrements_write hfresh⟩
    rw [hinsn] at hop
    rw [hexecute, act, hop]
    rfl

/-- A subtraction at address 0 of which both operands lead back to it. The A operand increments its
own B value, which becomes the way of the B operand to cell 1 and from there back to cell 0. -/
def ouroboros : Core :=
  (ofSettings { Settings.narrow with readDistance := 4 }).store 0
    ⟨.sub, .ba, ⟨.postIncrement, 0⟩, ⟨.preDecrement, 0⟩⟩

theorem sound_ouroboros : ouroboros.Sound := by
  have hvalid := (Settings.validate_eq_ok_iff { Settings.narrow with readDistance := 4 }).mp rfl
  exact (sound_ofSettings hvalid (by decide)).of_shape_eq rfl

theorem execute_updates_in_place_ouroboros :
    ouroboros.Sound ∧ ouroboros.readDistance = ouroboros.writeDistance ∧
    (ouroboros.decode 0).1.b.write = 0 ∧
    (ouroboros.decode 0).1.b.insn = (ouroboros.decode 0).2.fetch 0 ∧
    (ouroboros.decode 0).2.fetch 0 = ⟨.sub, .ba, ⟨.postIncrement, 0⟩, ⟨.preDecrement, 1⟩⟩ ∧
    (ouroboros.execute 0).2.fetch 0 = ⟨.sub, .ba, ⟨.postIncrement, -1⟩, ⟨.preDecrement, 1⟩⟩ ∧
    ∃ cell, (ouroboros.execute 0).2 = (ouroboros.decode 0).2.store 0 cell ∧
      (ouroboros.decode 0).1.Computes .sub ((ouroboros.decode 0).2.fetch 0) cell := by
  have hd : ouroboros.decode 0 = ((ouroboros.decode 0).1, (ouroboros.decode 0).2) := rfl
  obtain ⟨_, _, _, _, hfresh, hcompute, _⟩ := execute_updates_in_place sound_ouroboros rfl hd
  exact ⟨sound_ouroboros, rfl, by decide, hfresh, by decide, by decide, hcompute .sub rfl⟩

end Core

end CoreWar
