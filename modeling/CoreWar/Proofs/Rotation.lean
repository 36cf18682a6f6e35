import CoreWar.Proofs.AddressMaps
import CoreWar.Proofs.Bounds
import CoreWar.Proofs.Scheduling

namespace CoreWar

/-- The address `shift` cells after `address` in a ring of `size` cells. -/
def shiftAddress (size shift address : Nat) : Nat := (address + shift) % size

theorem shiftAddress_add {size : Nat} (shift address offset : Nat) :
    (shiftAddress size shift address + offset) % size =
      shiftAddress size shift ((address + offset) % size) := by
  simp only [shiftAddress, Nat.mod_add_mod, Nat.add_right_comm]

theorem shiftAddress_back {size address : Nat} (shift : Nat) (h : address < size) :
    (shiftAddress size shift address + (size - shift % size)) % size = address := by
  have hlt := Nat.mod_lt shift (Nat.zero_lt_of_lt h)
  have hdiv := Nat.div_add_mod shift size
  have hsum : address + shift + (size - shift % size) = address + size * (shift / size + 1) := by
    rw [Nat.mul_add]
    omega
  rw [shiftAddress, Nat.mod_add_mod, hsum, Nat.add_mul_mod_self_left, Nat.mod_eq_of_lt h]

theorem shiftAddress_injective {size shift first second : Nat} (hf : first < size)
    (hs : second < size) (h : shiftAddress size shift first = shiftAddress size shift second) :
    first = second := by
  rw [← shiftAddress_back shift hf, h, shiftAddress_back shift hs]

theorem exists_shiftAddress_eq {size address : Nat} (shift : Nat) (h : address < size) :
    ∃ before, before < size ∧ shiftAddress size shift before = address := by
  have hpos := Nat.zero_lt_of_lt h
  refine ⟨(address + (size - shift % size)) % size, Nat.mod_lt _ hpos, ?_⟩
  rw [← shiftAddress_add, shiftAddress_back shift h]

namespace Core

def rotate (core : Core) (shift : Nat) : Core :=
  { core with
    cells := Array.ofFn fun i : Fin core.size =>
      core.fetch ((i + (core.size - shift % core.size)) % core.size) }

@[simp] theorem shape_rotate (core : Core) (shift : Nat) :
    (core.rotate shift).shape = core.shape := by
  simp [shape, rotate, size]

@[simp] theorem size_rotate (core : Core) (shift : Nat) : (core.rotate shift).size = core.size :=
  size_eq_of_shape_eq (shape_rotate core shift)

theorem fetch_rotate {core : Core} (shift : Nat) {address : Nat} (h : address < core.size) :
    (core.rotate shift).fetch (shiftAddress core.size shift address) = core.fetch address := by
  have hlt : shiftAddress core.size shift address < core.size :=
    Nat.mod_lt _ (Nat.zero_lt_of_lt h)
  have hback := shiftAddress_back shift h
  change (Array.ofFn _).getD _ _ = _
  rw [Array.getD_eq_getD_getElem?, Array.getElem?_ofFn, dif_pos hlt]
  simp only [Option.getD_some, hback]

theorem store_rotate {core : Core} (shift : Nat) {address : Nat} (h : address < core.size)
    (insn : Instruction) :
    (core.rotate shift).store (shiftAddress core.size shift address) insn =
      (core.store address insn).rotate shift := by
  have hlt : shiftAddress core.size shift address < (core.rotate shift).size := by
    rw [size_rotate]
    exact Nat.mod_lt _ (Nat.zero_lt_of_lt h)
  apply ext_fetch
  · simp
  · intro moved hm
    rw [size_store, size_rotate] at hm
    obtain ⟨other, ho, rfl⟩ := exists_shiftAddress_eq shift hm
    have hright : ((core.store address insn).rotate shift).fetch
        (shiftAddress core.size shift other) = (core.store address insn).fetch other := by
      rw [← size_store core address insn] at ho ⊢
      exact fetch_rotate shift ho
    rw [hright, fetch_store hlt, fetch_store h, fetch_rotate shift ho]
    by_cases he : address = other
    · rw [he, if_pos rfl, if_pos rfl]
    · rw [if_neg he, if_neg (fun heq => he (shiftAddress_injective h ho heq))]

theorem offset_rotate (core : Core) (shift : Nat) (window : Window) (value : Int64) :
    (core.rotate shift).offset window value = core.offset window value :=
  offset_eq_of_shape_eq (shape_rotate core shift) window value

theorem advance_rotate (core : Core) (shift pc offset : Nat) :
    (core.rotate shift).advance (shiftAddress core.size shift pc) offset =
      shiftAddress core.size shift (core.advance pc offset) := by
  rw [advance_eq_of_shape_eq (shape_rotate core shift)]
  exact shiftAddress_add shift pc offset

theorem bump_rotate {core : Core} (shift : Nat) {address : Nat} (h : address < core.size)
    (delta : Int64) :
    (core.rotate shift).bump (shiftAddress core.size shift address) delta =
      (core.bump address delta).rotate shift := by
  rw [bump, bump, fetch_rotate shift h, size_rotate]
  exact store_rotate shift h _

theorem follow_rotate {core : Core} (hpos : 0 < core.size) (shift : Nat) (window : Window)
    (pc offset : Nat) :
    (core.rotate shift).follow window (shiftAddress core.size shift pc) offset =
      core.follow window pc offset := by
  rw [follow, follow, advance_rotate, fetch_rotate shift (advance_lt hpos pc offset), offset_rotate]

theorem followBoth_rotate {core : Core} (hpos : 0 < core.size) (shift pc : Nat) (value : Int64) :
    (core.rotate shift).followBoth (shiftAddress core.size shift pc) value =
      core.followBoth pc value := by
  rw [followBoth, followBoth, follow_rotate hpos, follow_rotate hpos, offset_rotate, offset_rotate]

theorem pointerCell_rotate (core : Core) (shift pc : Nat) (value : Int64) :
    (core.rotate shift).pointerCell (shiftAddress core.size shift pc) value =
      shiftAddress core.size shift (core.pointerCell pc value) := by
  rw [pointerCell, pointerCell, offset_rotate, advance_rotate]

end Core

namespace Core

theorem targetAt_rotate {core : Core} (hpos : 0 < core.size) (shift pc : Nat)
    (offsets : Nat × Nat) :
    (core.rotate shift).targetAt (shiftAddress core.size shift pc) offsets =
      (core.targetAt pc offsets).map (shiftAddress core.size shift) := by
  have hread := fetch_rotate shift (advance_lt hpos pc offsets.1)
  simp only [targetAt, advance_rotate, hread]
  rfl

theorem resolve_rotate {core : Core} (shift : Nat) {pc : Nat} (hpc : pc < core.size)
    (field : Field) :
    (core.rotate shift).resolve (shiftAddress core.size shift pc) field =
      ((core.resolve pc field).1.map (shiftAddress core.size shift),
        (core.resolve pc field).2.rotate shift) := by
  have hpos := Nat.zero_lt_of_lt hpc
  unfold resolve
  rw [fetch_rotate shift hpc]
  cases field.operand (core.fetch pc) with
  | mk mode value =>
    have hcell : core.pointerCell pc value < core.size := advance_lt hpos _ _
    cases mode with
    | immediate => simp only [targetAt_rotate hpos]
    | direct => simp only [targetAt_rotate hpos, offset_rotate]
    | indirect => simp only [targetAt_rotate hpos, followBoth_rotate hpos]
    | preDecrement =>
      have hs := size_bump core (core.pointerCell pc value) (-1)
      have hpos' := hpos
      rw [← hs] at hpos'
      simp only [pointerCell_rotate, bump_rotate shift hcell]
      simp only [← hs, followBoth_rotate hpos', targetAt_rotate hpos']
    | postIncrement =>
      have hs := size_bump core (core.pointerCell pc value) 1
      have hpos' := hpos
      rw [← hs] at hpos'
      simp only [pointerCell_rotate, bump_rotate shift hcell, followBoth_rotate hpos]
      simp only [← hs, targetAt_rotate hpos']

theorem decode_rotate {core : Core} (shift : Nat) {pc : Nat} (hpc : pc < core.size) :
    (core.rotate shift).decode (shiftAddress core.size shift pc) =
      ((core.decode pc).1.map (shiftAddress core.size shift),
        (core.decode pc).2.rotate shift) := by
  have hb := hpc
  rw [← size_resolve core pc .a] at hb
  have hresolve := resolve_rotate shift hb .b
  rw [size_resolve] at hresolve
  rw [decode, fetch_rotate shift hpc, resolve_rotate shift hpc .a]
  simp only [hresolve]
  rfl

section

variable {core : Core} {d : Decoded} (shift : Nat)

theorem writeTarget_rotate (hd : d.Within core.size) (values : List Int64) :
    (core.rotate shift).writeTarget (d.map (shiftAddress core.size shift)) values =
      (core.writeTarget d values).rotate shift := by
  change (core.rotate shift).store (shiftAddress core.size shift d.b.write)
    (d.insn.modifier.target.write values
      ((core.rotate shift).fetch (shiftAddress core.size shift d.b.write))) = _
  rw [fetch_rotate shift hd.write_lt]
  exact store_rotate shift hd.write_lt _

theorem continueAt_advance_rotate (core : Core) (pc offset : Nat) :
    .continueAt ((core.rotate shift).advance (shiftAddress core.size shift pc) offset) =
      (Update.continueAt (core.advance pc offset)).map (shiftAddress core.size shift) := by
  rw [advance_rotate]
  rfl

theorem next_rotate (core : Core) (d : Decoded) :
    (core.rotate shift).next (d.map (shiftAddress core.size shift)) =
      (core.next d).map (shiftAddress core.size shift) :=
  continueAt_advance_rotate shift core d.pc 1

theorem jumpIf_rotate (core : Core) (d : Decoded) (taken : Bool) :
    (core.rotate shift).jumpIf (d.map (shiftAddress core.size shift)) taken =
      (core.jumpIf d taken).map (shiftAddress core.size shift) := by
  cases taken with
  | true => rfl
  | false => exact next_rotate shift core d

theorem skipIf_rotate (core : Core) (d : Decoded) (skipped : Bool) :
    (core.rotate shift).skipIf (d.map (shiftAddress core.size shift)) skipped =
      (core.skipIf d skipped).map (shiftAddress core.size shift) := by
  cases skipped with
  | true => exact continueAt_advance_rotate shift core d.pc 2
  | false => exact next_rotate shift core d

theorem move_rotate (hd : d.Within core.size) :
    (core.rotate shift).move (d.map (shiftAddress core.size shift)) =
      ((core.move d).1.map (shiftAddress core.size shift), (core.move d).2.rotate shift) := by
  have hstore := store_rotate shift hd.write_lt d.a.insn
  have hwrite := writeTarget_rotate shift hd d.source
  unfold move
  rw [next_rotate]
  by_cases hi : d.insn.modifier = .i
  · simp only [Decoded.map, Target.map, hi, if_true, hstore]
  · simp only [if_neg hi, ← hwrite]
    exact if_neg hi

theorem compute_rotate (hd : d.Within core.size) (op : Operator) :
    (core.rotate shift).compute (d.map (shiftAddress core.size shift)) op =
      ((core.compute d op).1.map (shiftAddress core.size shift),
        (core.compute d op).2.rotate shift) := by
  simp only [compute_eq, Decoded.map_source, Decoded.map_target, next_rotate,
    writeTarget_rotate shift hd]
  cases (op.applyAll (d.target.zip d.source)).2 <;> rfl

theorem decrementJump_rotate (hd : d.Within core.size) :
    (core.rotate shift).decrementJump (d.map (shiftAddress core.size shift)) =
      ((core.decrementJump d).1.map (shiftAddress core.size shift),
        (core.decrementJump d).2.rotate shift) := by
  simp only [decrementJump, Decoded.map_target, jumpIf_rotate, writeTarget_rotate shift hd]

theorem act_rotate (hd : d.Within core.size) :
    (core.rotate shift).act (d.map (shiftAddress core.size shift)) =
      ((core.act d).1.map (shiftAddress core.size shift), (core.act d).2.rotate shift) := by
  unfold act
  rw [Decoded.map_insn]
  cases d.insn.opcode with
  | dat | jmp => rfl
  | mov => exact move_rotate shift hd
  | add | sub | mul | div | mod => exact compute_rotate shift hd _
  | jmz | jmn => simp only [Decoded.map_target, jumpIf_rotate]
  | djn => exact decrementJump_rotate shift hd
  | cmp | slt => exact congrArg (·, core.rotate shift) (skipIf_rotate shift core d _)
  | spl =>
    simp only [Decoded.map, Target.map, advance_rotate]
    rfl

end

/-- An instruction does the same from `shift` cells further on. -/
theorem execute_rotate {core : Core} (shift : Nat) {pc : Nat} (hpc : pc < core.size) :
    (core.rotate shift).execute (shiftAddress core.size shift pc) =
      ((core.execute pc).1.map (shiftAddress core.size shift),
        (core.execute pc).2.rotate shift) := by
  have hd := decode_within (Nat.zero_lt_of_lt hpc) pc
  rw [← size_decode core pc] at hd
  have hact := act_rotate shift hd
  rw [size_decode] at hact
  rw [execute, decode_rotate shift hpc]
  exact hact

end Core

end CoreWar
