import CoreWar.Proofs.Footprint

namespace CoreWar

namespace Operator

def leadingDefined (op : Operator) (pairs : List (Int64 × Int64)) : Nat :=
  (pairs.takeWhile fun pair => (op.apply pair.1 pair.2).isSome).length

theorem leadingDefined_cons_none {op : Operator} {lhs rhs : Int64} (h : op.apply lhs rhs = none)
    (pairs : List (Int64 × Int64)) : op.leadingDefined ((lhs, rhs) :: pairs) = 0 := by
  simp [leadingDefined, h]

theorem leadingDefined_cons_some {op : Operator} {lhs rhs value : Int64}
    (h : op.apply lhs rhs = some value) (pairs : List (Int64 × Int64)) :
    op.leadingDefined ((lhs, rhs) :: pairs) = op.leadingDefined pairs + 1 := by
  simp [leadingDefined, h]

theorem map_some_applyAll (op : Operator) (pairs : List (Int64 × Int64)) :
    (op.applyAll pairs).1.map some =
      (pairs.take (op.leadingDefined pairs)).map fun pair => op.apply pair.1 pair.2 := by
  induction pairs with
  | nil => rfl
  | cons pair pairs ih =>
    obtain ⟨lhs, rhs⟩ := pair
    cases h : op.apply lhs rhs with
    | none =>
      rw [leadingDefined_cons_none h]
      simp [applyAll, h]
    | some value =>
      rw [leadingDefined_cons_some h]
      simp [applyAll, h, ih]

theorem length_applyAll (op : Operator) (pairs : List (Int64 × Int64)) :
    (op.applyAll pairs).1.length = op.leadingDefined pairs := by
  have hlength := congrArg List.length (op.map_some_applyAll pairs)
  have hle : op.leadingDefined pairs ≤ pairs.length := (List.takeWhile_prefix _).length_le
  simpa [Nat.min_eq_left hle] using hlength

theorem applyAll_snd_iff (op : Operator) (pairs : List (Int64 × Int64)) :
    (op.applyAll pairs).2 = true ↔ ∀ pair ∈ pairs, (op.apply pair.1 pair.2).isSome := by
  induction pairs with
  | nil => simp [applyAll]
  | cons pair pairs ih =>
    obtain ⟨lhs, rhs⟩ := pair
    cases h : op.apply lhs rhs with
    | none => simp [applyAll, h]
    | some value => simp [applyAll, h, ih]

end Operator

namespace Field

@[simp] theorem get_set (field : Field) (value : Int64) (insn : Instruction) :
    field.get (field.set value insn) = value := by
  cases field <;> rfl

theorem get_set_of_ne {field other : Field} (h : field ≠ other) (value : Int64)
    (insn : Instruction) : field.get (other.set value insn) = field.get insn := by
  cases field with
  | a =>
    cases other with
    | a => exact absurd rfl h
    | b => rfl
  | b =>
    cases other with
    | a => rfl
    | b => exact absurd rfl h

end Field

namespace Selection

theorem get_write_of_not_mem {field : Field} {fields : Selection} {values : List Int64}
    (h : field ∉ fields.take values.length) (insn : Instruction) :
    field.get (fields.write values insn) = field.get insn := by
  induction fields generalizing values insn with
  | nil => rfl
  | cons first fields ih =>
    cases values with
    | nil => rfl
    | cons value values =>
      rw [List.length_cons, List.take_succ_cons, List.mem_cons, not_or] at h
      rw [write, ih h.2, Field.get_set_of_ne h.1]

theorem read_write {fields : Selection} (hnodup : fields.Nodup) {values : List Int64}
    (hle : values.length ≤ fields.length) (insn : Instruction) :
    Selection.read (fields.take values.length) (fields.write values insn) = values := by
  induction fields generalizing values insn with
  | nil => simp_all [read]
  | cons first fields ih =>
    cases values with
    | nil => rfl
    | cons value values =>
      obtain ⟨hfirst, hrest⟩ := List.nodup_cons.mp hnodup
      have hkept : first ∉ fields.take values.length := fun hm => hfirst (List.mem_of_mem_take hm)
      have hread := ih hrest (Nat.le_of_succ_le_succ hle) (first.set value insn)
      simp only [read] at hread
      simp only [read, write, List.length_cons, List.take_succ_cons, List.map_cons, hread,
        get_write_of_not_mem hkept, Field.get_set]

end Selection

namespace Modifier

/-- The destination fields with the source field of each, in the order in which they are computed. -/
def lanes : Modifier → List (Field × Field)
  | a => [(.a, .a)]
  | b => [(.b, .b)]
  | ab => [(.b, .a)]
  | ba => [(.a, .b)]
  | f | i => [(.a, .a), (.b, .b)]
  | x => [(.b, .a), (.a, .b)]

theorem map_fst_lanes (modifier : Modifier) : modifier.lanes.map Prod.fst = modifier.target := by
  cases modifier <;> rfl

theorem map_snd_lanes (modifier : Modifier) : modifier.lanes.map Prod.snd = modifier.source := by
  cases modifier <;> rfl

theorem nodup_target (modifier : Modifier) : modifier.target.Nodup := by
  cases modifier <;> decide

end Modifier

namespace Decoded

def lanePair (d : Decoded) (lane : Field × Field) : Int64 × Int64 :=
  (lane.1.get d.b.insn, lane.2.get d.a.insn)

def pairs (d : Decoded) : List (Int64 × Int64) := d.insn.modifier.lanes.map d.lanePair

theorem zip_target_source (d : Decoded) : d.target.zip d.source = d.pairs := by
  rw [target, source, ← Modifier.map_fst_lanes, ← Modifier.map_snd_lanes, Selection.read,
    Selection.read, List.map_map, List.map_map, List.zip_map']
  rfl

theorem applyAll_pairs_snd_iff (d : Decoded) (op : Operator) :
    (op.applyAll d.pairs).2 = true ↔ ∀ lane ∈ d.insn.modifier.lanes,
      (op.apply (d.lanePair lane).1 (d.lanePair lane).2).isSome := by
  rw [Operator.applyAll_snd_iff, pairs, List.forall_mem_map]

theorem leadingDefined_pairs_le (d : Decoded) (op : Operator) :
    op.leadingDefined d.pairs ≤ d.insn.modifier.lanes.length := by
  rw [← List.length_map d.lanePair]
  exact (List.takeWhile_prefix _).length_le

theorem take_target (d : Decoded) (count : Nat) :
    d.insn.modifier.target.take count = (d.insn.modifier.lanes.take count).map Prod.fst := by
  rw [← Modifier.map_fst_lanes, List.map_take]

end Decoded

namespace Core

/-- The cell of the B operand after the lanes with a result were computed. -/
def computedCell (core : Core) (d : Decoded) (op : Operator) : Instruction :=
  d.insn.modifier.target.write (op.applyAll d.pairs).1 (core.fetch d.b.write)

/-- A lane before the first without a result leaves its result in the cell. -/
theorem get_computedCell_of_mem {core : Core} {d : Decoded} {op : Operator} {lane : Field × Field}
    (h : lane ∈ d.insn.modifier.lanes.take (op.leadingDefined d.pairs)) :
    op.apply (d.lanePair lane).1 (d.lanePair lane).2 =
      some (lane.1.get (core.computedCell d op)) := by
  have hlength := op.length_applyAll d.pairs
  have hle : (op.applyAll d.pairs).1.length ≤ d.insn.modifier.target.length := by
    rw [hlength, ← Modifier.map_fst_lanes, List.length_map]
    exact d.leadingDefined_pairs_le op
  have hread : Selection.read (d.insn.modifier.target.take (op.applyAll d.pairs).1.length)
      (core.computedCell d op) = (op.applyAll d.pairs).1 :=
    Selection.read_write (Modifier.nodup_target _) hle _
  have hvalues := op.map_some_applyAll d.pairs
  rw [← hread, hlength, d.take_target, Selection.read, List.map_map, List.map_map] at hvalues
  rw [Decoded.pairs, ← List.map_take, List.map_map] at hvalues
  exact (List.map_inj_left.mp hvalues lane h).symm

theorem get_computedCell_of_not_mem {core : Core} {d : Decoded} {op : Operator} {field : Field}
    (h : field ∉ (d.insn.modifier.lanes.take (op.leadingDefined d.pairs)).map Prod.fst) :
    field.get (core.computedCell d op) = field.get (core.fetch d.b.write) := by
  rw [← d.take_target, ← op.length_applyAll d.pairs] at h
  exact Selection.get_write_of_not_mem h _

theorem act_of_operator? {d : Decoded} {op : Operator} (h : d.insn.opcode.operator? = some op)
    (core : Core) : core.act d = core.compute d op := by
  unfold act
  cases ho : d.insn.opcode with
  | add | sub | mul | div | mod =>
    rw [ho] at h
    cases h
    rfl
  | dat | mov | jmp | jmz | jmn | djn | cmp | slt | spl =>
    rw [ho] at h
    cases h

theorem next_of_decode {core decoded : Core} {pc : Nat} {d : Decoded}
    (h : core.decode pc = (d, decoded)) : decoded.next d = .continueAt (core.advance pc 1) := by
  have hpc : d.pc = pc := congrArg (·.1.pc) h.symm
  have hshape := shape_decode core pc
  rw [h] at hshape
  rw [next, hpc, advance_eq_of_shape_eq hshape]

theorem execute_of_operator? {core decoded : Core} {pc : Nat} {d : Decoded} {op : Operator}
    (hop : (core.fetch pc).opcode.operator? = some op) (hd : core.decode pc = (d, decoded)) :
    core.execute pc =
      (if (op.applyAll d.pairs).2 then .continueAt (core.advance pc 1) else .halt,
        decoded.store d.b.write (decoded.computedCell d op)) := by
  have hinsn : core.fetch pc = d.insn := congrArg (·.1.insn) hd
  rw [hinsn] at hop
  rw [execute_eq, hd, act_of_operator? hop, compute_eq, d.zip_target_source, next_of_decode hd]
  rfl

/-- An arithmetic instruction leaves the core as it is after decoding, but for one cell, that of the
B operand. The lanes before the first without a result have put their results into this cell, and
all else of it is unchanged. The task goes on with the next instruction exactly if every lane has a
result, and otherwise it ends. -/
theorem execute_arithmetic_exact {core decoded : Core} (h : core.Sound) {pc : Nat} {d : Decoded}
    {op : Operator} (hop : (core.fetch pc).opcode.operator? = some op)
    (hd : core.decode pc = (d, decoded)) :
    (∃ cell, d.b.write < decoded.size ∧ (core.execute pc).2 = decoded.store d.b.write cell ∧
      cell.form = (decoded.fetch d.b.write).form ∧
      (∀ lane ∈ d.insn.modifier.lanes.take (op.leadingDefined d.pairs),
        op.apply (lane.1.get d.b.insn) (lane.2.get d.a.insn) = some (lane.1.get cell)) ∧
      ∀ field ∉ (d.insn.modifier.lanes.take (op.leadingDefined d.pairs)).map Prod.fst,
        field.get cell = field.get (decoded.fetch d.b.write)) ∧
    ((core.execute pc).1 = ⟨some (core.advance pc 1), none⟩ ↔
      ∀ lane ∈ d.insn.modifier.lanes,
        (op.apply (lane.1.get d.b.insn) (lane.2.get d.a.insn)).isSome) ∧
    ((core.execute pc).1 = ⟨none, none⟩ ↔
      ∃ lane ∈ d.insn.modifier.lanes,
        op.apply (lane.1.get d.b.insn) (lane.2.get d.a.insn) = none) := by
  have hwrite := (decode_within h.size_pos pc).write_lt
  rw [← size_decode core pc, hd] at hwrite
  have hdefined := d.applyAll_pairs_snd_iff op
  simp only [Decoded.lanePair] at hdefined
  have hfault : (∃ lane ∈ d.insn.modifier.lanes,
      op.apply (lane.1.get d.b.insn) (lane.2.get d.a.insn) = none) ↔
      ¬ (op.applyAll d.pairs).2 = true := by
    rw [hdefined]
    simp
  rw [execute_of_operator? hop hd, hfault, ← hdefined]
  refine ⟨⟨decoded.computedCell d op, hwrite, rfl, Selection.form_write _ _ _,
    fun _ => get_computedCell_of_mem, fun _ => get_computedCell_of_not_mem⟩, ?_⟩
  cases (op.applyAll d.pairs).2 with
  | true => simp [Update.continueAt]
  | false => simp [Update.halt]

/-- A division at address 0. Its B operand goes through cell 1, which it decrements, reads cell 11 and
writes to cell 1 again. The first lane has a result, the second one would divide by zero. -/
def divider : Core :=
  ((((ofSettings .narrow).store 0 ⟨.div, .x, ⟨.direct, 2⟩, ⟨.preDecrement, 1⟩⟩).store 1
    ⟨.dat, .f, ⟨.immediate, 1⟩, ⟨.immediate, 5⟩⟩).store 2
    ⟨.dat, .f, ⟨.immediate, 2⟩, ⟨.immediate, 0⟩⟩).store 11
    ⟨.dat, .f, ⟨.immediate, 7⟩, ⟨.immediate, -9⟩⟩

theorem sound_divider : divider.Sound :=
  (sound_ofSettings ((Settings.validate_eq_ok_iff .narrow).mp rfl) (by decide)).of_shape_eq rfl

theorem execute_arithmetic_exact_divider :
    divider.Sound ∧ (divider.fetch 0).opcode.operator? = some .div ∧
    (divider.decode 0).2.fetch 1 = ⟨.dat, .f, ⟨.immediate, 1⟩, ⟨.immediate, 4⟩⟩ ∧
    (divider.execute 0).2.fetch 1 = ⟨.dat, .f, ⟨.immediate, 1⟩, ⟨.immediate, -5⟩⟩ ∧
    Operator.leadingDefined .div (divider.decode 0).1.pairs = 1 ∧
    (∃ cell, (divider.execute 0).2 = (divider.decode 0).2.store 1 cell) ∧
    (divider.execute 0).1 = ⟨none, none⟩ := by
  have hop : (divider.fetch 0).opcode.operator? = some .div := rfl
  have hd : divider.decode 0 = ((divider.decode 0).1, (divider.decode 0).2) := rfl
  obtain ⟨⟨cell, _, hcell, _⟩, _, hhalt⟩ := execute_arithmetic_exact sound_divider hop hd
  exact ⟨sound_divider, hop, by decide, by decide, by decide, ⟨cell, hcell⟩,
    hhalt.mpr ⟨(.a, .b), by decide, by decide⟩⟩

end Core

end CoreWar
