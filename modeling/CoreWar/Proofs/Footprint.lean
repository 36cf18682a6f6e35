import CoreWar.Proofs.Loading
import CoreWar.Proofs.Windows
import Mathlib.Data.Finset.Card

namespace CoreWar

namespace Opcode

def writers : List Opcode := [mov, add, sub, mul, div, mod, djn]

end Opcode

namespace Instruction

/-- All of an instruction but its two values. -/
def form (insn : Instruction) : Opcode × Modifier × Mode × Mode :=
  (insn.opcode, insn.modifier, insn.a.mode, insn.b.mode)

end Instruction

theorem Field.form_set (field : Field) (value : Int64) (insn : Instruction) :
    (field.set value insn).form = insn.form := by
  cases field <;> rfl

theorem Field.set_b_set_b (first second : Int64) (insn : Instruction) :
    b.set second (b.set first insn) = b.set second insn := rfl

theorem Selection.form_write (fields : Selection) (values : List Int64) (insn : Instruction) :
    (fields.write values insn).form = insn.form := by
  induction fields generalizing values insn with
  | nil => rfl
  | cons field fields ih =>
    cases values with
    | nil => rfl
    | cons value values => exact (ih values _).trans (field.form_set value insn)

namespace Core

/-- The operand is in a mode that decrements or increments a cell, and this is the cell. -/
def IsSideCell (core : Core) (pc : Nat) (field : Field) (address : Nat) : Prop :=
  (field.operand (core.fetch pc)).mode ∈ [Mode.preDecrement, .postIncrement] ∧
    address = core.pointerCell pc (field.operand (core.fetch pc)).value

theorem fetch_bump {core : Core} {cell : Nat} (h : cell < core.size) (delta : Int64)
    (address : Nat) :
    (core.bump cell delta).fetch address = core.fetch address ∨ address = cell ∧
      ∃ value, (core.bump cell delta).fetch address = Field.b.set value (core.fetch address) := by
  rw [bump, fetch_store h]
  by_cases he : cell = address
  · subst he
    exact .inr ⟨rfl, _, if_pos rfl⟩
  · exact .inl (if_neg he)

theorem fetch_resolve {core : Core} (h : core.Sound) (pc : Nat) (field : Field) (address : Nat) :
    (core.resolve pc field).2.fetch address = core.fetch address ∨
      core.IsSideCell pc field address ∧
        ∃ value, (core.resolve pc field).2.fetch address =
          Field.b.set value (core.fetch address) := by
  unfold resolve IsSideCell
  cases field.operand (core.fetch pc) with
  | mk mode value =>
    have hcell : core.pointerCell pc value < core.size := advance_lt h.size_pos _ _
    cases mode with
    | immediate | direct | indirect => exact .inl rfl
    | preDecrement =>
      exact (fetch_bump hcell (-1) address).imp_right fun hb => ⟨⟨by simp, hb.1⟩, hb.2⟩
    | postIncrement =>
      exact (fetch_bump hcell 1 address).imp_right fun hb => ⟨⟨by simp, hb.1⟩, hb.2⟩

theorem decode_snd (core : Core) (pc : Nat) :
    (core.decode pc).2 = ((core.resolve pc .a).2.resolve pc .b).2 := rfl

theorem IsSideCell.inWindow {core other : Core} (h : core.Sound) (hs : other.shape = core.shape)
    {pc : Nat} {field : Field} {address : Nat} (hside : other.IsSideCell pc field address) :
    core.InWindow .write pc address := by
  rw [← inWindow_iff_of_shape_eq hs, hside.2]
  exact inWindow_pointerCell (h.of_shape_eq hs) pc _

/-- A cell that changes while both operands are resolved is a side cell of one of them. The B
operand is the one that the A operand has left behind. -/
theorem fetch_decode {core : Core} (h : core.Sound) (pc address : Nat) :
    (core.decode pc).2.fetch address = core.fetch address ∨
      (core.IsSideCell pc .a address ∨ (core.resolve pc .a).2.IsSideCell pc .b address) ∧
        ∃ value, (core.decode pc).2.fetch address = Field.b.set value (core.fetch address) := by
  have hafter := h.of_shape_eq (shape_resolve core pc .a)
  rw [decode_snd]
  obtain hb | ⟨hb, second, hsecond⟩ := fetch_resolve hafter pc .b address
  · rw [hb]
    exact (fetch_resolve h pc .a address).imp_right fun ha => ⟨.inl ha.1, ha.2⟩
  · right
    refine ⟨.inr hb, second, ?_⟩
    rw [hsecond]
    obtain ha | ⟨_, first, hfirst⟩ := fetch_resolve h pc .a address
    · rw [ha]
    · rw [hfirst, Field.set_b_set_b]

theorem fetch_writeTarget {core : Core} {d : Decoded} (h : d.b.write < core.size)
    (values : List Int64) (address : Nat) :
    (core.writeTarget d values).fetch address = core.fetch address ∨ address = d.b.write ∧
      ((core.writeTarget d values).fetch address).form = (core.fetch address).form := by
  rw [writeTarget, fetch_store h]
  by_cases he : d.b.write = address
  · right
    rw [if_pos he, Selection.form_write, he]
    exact ⟨rfl, rfl⟩
  · exact .inl (if_neg he)

theorem fetch_move {core : Core} {d : Decoded} (h : d.b.write < core.size) (address : Nat) :
    (core.move d).2.fetch address = core.fetch address ∨ address = d.b.write ∧
      (((core.move d).2.fetch address).form ≠ (core.fetch address).form →
        d.insn.modifier = .i) := by
  rw [move]
  split
  · next hi =>
    by_cases he : d.b.write = address
    · exact .inr ⟨he.symm, fun _ => hi⟩
    · left
      rw [fetch_store h, if_neg he]
  · exact (fetch_writeTarget h _ address).imp_right fun hw => ⟨hw.1, fun hn => absurd hw.2 hn⟩

theorem fetch_act {core : Core} {d : Decoded} (h : d.b.write < core.size) (address : Nat) :
    (core.act d).2.fetch address = core.fetch address ∨
      (d.insn.opcode ∈ Opcode.writers ∧ address = d.b.write) ∧
        (((core.act d).2.fetch address).form ≠ (core.fetch address).form →
          d.insn.opcode = .mov ∧ d.insn.modifier = .i) := by
  have hwrite := fun values => fetch_writeTarget h values address
  unfold act
  cases d.insn.opcode with
  | dat | jmp | jmz | jmn | cmp | slt | spl => exact .inl rfl
  | mov =>
    exact (fetch_move h address).imp_right fun hm => ⟨⟨by decide, hm.1⟩, fun hn => ⟨rfl, hm.2 hn⟩⟩
  | add | sub | mul | div | mod | djn =>
    exact (hwrite _).imp_right fun hw => ⟨⟨by decide, hw.1⟩, fun hn => absurd hw.2 hn⟩

/-- The instruction at `pc` writes to the cell of its B operand, and this is the cell. -/
def IsWriteCell (core : Core) (pc address : Nat) : Prop :=
  (core.fetch pc).opcode ∈ Opcode.writers ∧ address = (core.decode pc).1.b.write

theorem IsWriteCell.inWindow {core : Core} (h : core.Sound) {pc address : Nat}
    (hw : core.IsWriteCell pc address) : core.InWindow .write pc address := by
  rw [hw.2]
  exact (decode_inWindow h pc).2.2

theorem execute_eq (core : Core) (pc : Nat) :
    core.execute pc = (core.decode pc).2.act (core.decode pc).1 := rfl

/-- All that can happen to a cell while an instruction is executed. -/
theorem fetch_execute {core : Core} (h : core.Sound) (pc address : Nat) :
    (core.execute pc).2.fetch address = core.fetch address ∨
      (core.IsSideCell pc .a address ∨ (core.resolve pc .a).2.IsSideCell pc .b address) ∧
        (∃ value, (core.execute pc).2.fetch address = Field.b.set value (core.fetch address)) ∨
      core.IsWriteCell pc address ∧
        (((core.execute pc).2.fetch address).form ≠ (core.fetch address).form →
          (core.fetch pc).opcode = .mov ∧ (core.fetch pc).modifier = .i) := by
  have hd := (decode_within h.size_pos pc).write_lt
  rw [← size_decode core pc] at hd
  have hdecode := fetch_decode h pc address
  rw [execute_eq]
  obtain hact | ⟨hwrite, hform⟩ := fetch_act hd address
  · rw [hact]
    exact hdecode.imp_right .inl
  · refine .inr (.inr ⟨hwrite, fun hn => hform fun he => hn (he.trans ?_)⟩)
    obtain hsame | ⟨_, value, hvalue⟩ := hdecode
    · rw [hsame]
    · rw [hvalue, Field.form_set]

theorem cell_of_fetch_ne {core : Core} (h : core.Sound) {pc address : Nat}
    (hne : (core.execute pc).2.fetch address ≠ core.fetch address) :
    core.IsSideCell pc .a address ∨ (core.resolve pc .a).2.IsSideCell pc .b address ∨
      core.IsWriteCell pc address := by
  obtain hsame | ⟨ha | hb, _⟩ | ⟨hw, _⟩ := fetch_execute h pc address
  · exact absurd hsame hne
  · exact .inl ha
  · exact .inr (.inl hb)
  · exact .inr (.inr hw)

theorem inWindow_of_fetch_ne {core : Core} (h : core.Sound) {pc address : Nat}
    (hne : (core.execute pc).2.fetch address ≠ core.fetch address) :
    core.InWindow .write pc address := by
  obtain ha | hb | hw := cell_of_fetch_ne h hne
  · exact ha.inWindow h rfl
  · exact hb.inWindow h (shape_resolve core pc .a)
  · exact hw.inWindow h

theorem fetch_execute_of_not_inWindow {core : Core} (h : core.Sound) {pc address : Nat}
    (hout : ¬ core.InWindow .write pc address) :
    (core.execute pc).2.fetch address = core.fetch address := by
  by_contra hne
  exact hout (inWindow_of_fetch_ne h hne)

/-- A cell that an instruction changes lies in the write window. It is the side cell of an operand,
of which only the B value changes, or the cell that the opcode writes to; so there are three such
cells at most. Only a move of whole instructions changes more of a cell than its values. -/
theorem execute_footprint {core : Core} (h : core.Sound) (pc : Nat) :
    (∀ address, (core.execute pc).2.fetch address ≠ core.fetch address →
      core.InWindow .write pc address ∧
      (core.IsSideCell pc .a address ∨ (core.resolve pc .a).2.IsSideCell pc .b address ∨
        core.IsWriteCell pc address) ∧
      (((core.execute pc).2.fetch address).form ≠ (core.fetch address).form →
        (core.fetch pc).opcode = .mov ∧ (core.fetch pc).modifier = .i ∧
          core.IsWriteCell pc address) ∧
      (¬ core.IsWriteCell pc address →
        ∃ value, (core.execute pc).2.fetch address = Field.b.set value (core.fetch address))) ∧
    ((Finset.range core.size).filter fun address =>
      (core.execute pc).2.fetch address ≠ core.fetch address).card ≤ 3 := by
  constructor
  · intro address hne
    refine ⟨inWindow_of_fetch_ne h hne, cell_of_fetch_ne h hne, ?_⟩
    obtain hsame | ⟨_, value, hvalue⟩ | ⟨hw, hmove⟩ := fetch_execute h pc address
    · exact absurd hsame hne
    · refine ⟨?_, fun _ => ⟨value, hvalue⟩⟩
      intro hform
      rw [hvalue, Field.form_set] at hform
      exact absurd rfl hform
    · refine ⟨?_, fun hnot => absurd hw hnot⟩
      intro hform
      exact ⟨(hmove hform).1, (hmove hform).2, hw⟩
  · refine (Finset.card_le_card ?_).trans (Finset.card_le_three
      (a := core.pointerCell pc (core.fetch pc).a.value)
      (b := (core.resolve pc .a).2.pointerCell pc ((core.resolve pc .a).2.fetch pc).b.value)
      (c := (core.decode pc).1.b.write))
    intro address hm
    have hcell := cell_of_fetch_ne h (Finset.mem_filter.mp hm).2
    simp only [Finset.mem_insert, Finset.mem_singleton]
    exact hcell.imp (·.2) (Or.imp (·.2) (·.2))

end Core

def Settings.narrow : Settings where
  coreSize := 12
  cyclesBeforeTie := 20
  initial := .empty
  instructionLimit := 4
  maxTasks := 3
  minimumSeparation := 4
  readDistance := 6
  writeDistance := 4
  separation := .fixed 4
  warriors := 2

namespace Core

def adder : Core :=
  (((ofSettings .narrow).store 0 ⟨.add, .ab, ⟨.postIncrement, 1⟩, ⟨.preDecrement, 2⟩⟩).store 1
    ⟨.dat, .f, ⟨.immediate, 3⟩, ⟨.immediate, 0⟩⟩).store 2 ⟨.dat, .f, ⟨.immediate, 0⟩, ⟨.immediate, 6⟩⟩

theorem sound_adder : adder.Sound :=
  (sound_ofSettings ((Settings.validate_eq_ok_iff .narrow).mp rfl) (by decide)).of_shape_eq rfl

theorem execute_footprint_adder :
    adder.Sound ∧ (adder.execute 0).2.fetch 11 ≠ adder.fetch 11 ∧ adder.InWindow .write 0 11 ∧
    ((Finset.range adder.size).filter fun address =>
      (adder.execute 0).2.fetch address ≠ adder.fetch address) = {1, 2, 11} ∧
    ((Finset.range adder.size).filter fun address =>
      (adder.execute 0).2.fetch address ≠ adder.fetch address).card ≤ 3 := by
  have hfoot := execute_footprint sound_adder 0
  exact ⟨sound_adder, by decide, (hfoot.1 11 (by decide)).1, by decide, hfoot.2⟩

end Core

end CoreWar
