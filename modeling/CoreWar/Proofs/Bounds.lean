import CoreWar.Core.Step
import CoreWar.Proofs.Folding

namespace CoreWar

namespace Core

/-- All of a core but the contents of its cells. -/
def shape (core : Core) : Nat × Nat × Nat := (core.size, core.readDistance, core.writeDistance)

theorem size_eq_of_shape_eq {core other : Core} (h : core.shape = other.shape) :
    core.size = other.size := congrArg Prod.fst h

theorem distance_eq_of_shape_eq {core other : Core} (h : core.shape = other.shape)
    (window : Window) : core.distance window = other.distance window := by
  cases window with
  | read => exact congrArg (fun s => s.2.1) h
  | write => exact congrArg (fun s => s.2.2) h

theorem offset_eq_of_shape_eq {core other : Core} (h : core.shape = other.shape)
    (window : Window) (value : Int64) : core.offset window value = other.offset window value := by
  rw [offset, offset, size_eq_of_shape_eq h, distance_eq_of_shape_eq h]

theorem wrap_eq_of_shape_eq {core other : Core} (h : core.shape = other.shape) (address : Int64) :
    core.wrap address = other.wrap address := by rw [wrap, wrap, size_eq_of_shape_eq h]

theorem advance_eq_of_shape_eq {core other : Core} (h : core.shape = other.shape)
    (address offset : Nat) : core.advance address offset = other.advance address offset := by
  rw [advance, advance, size_eq_of_shape_eq h]

theorem advance_advance (core : Core) (base first second : Nat) :
    core.advance (core.advance base first) second = core.advance base (first + second) := by
  rw [advance, advance, advance, Nat.mod_add_mod, Nat.add_assoc]

theorem fetch_store {core : Core} {address : Nat} (h : address < core.size) (insn : Instruction)
    (other : Nat) :
    (core.store address insn).fetch other = if address = other then insn else core.fetch other := by
  have hc : address < core.cells.size := h
  unfold fetch store
  by_cases he : address = other
  · subst he
    simp [hc]
  · simp [he]

theorem ext_fetch {core other : Core} (hs : core.shape = other.shape)
    (hf : ∀ address, address < core.size → core.fetch address = other.fetch address) :
    core = other := by
  obtain ⟨cells, read, write⟩ := core
  obtain ⟨cells', read', write'⟩ := other
  simp only [shape, size, Prod.mk.injEq] at hs
  obtain ⟨hsize, rfl, rfl⟩ := hs
  have hcells : cells = cells' := by
    apply Array.ext hsize
    intro i hi hi'
    simpa [fetch, hi, hi'] using hf i hi
  rw [hcells]

/-- The largest core. The sum of two of its addresses is a signed word. -/
def maxSize : Nat := 0x4000000000000000

example : maxSize = 2 ^ 62 := by decide

/-- A core of validated settings whose addresses have room for their sums in a signed word. -/
structure Sound (core : Core) : Prop where
  size_pos : 0 < core.size
  size_le : core.size ≤ maxSize
  distance_pos : ∀ window, 0 < core.distance window
  distance_le : ∀ window, core.distance window ≤ core.size

theorem Sound.of_shape_eq {core other : Core} (h : core.Sound) (hs : other.shape = core.shape) :
    other.Sound := by
  have hsize := size_eq_of_shape_eq hs
  have hdistance := distance_eq_of_shape_eq hs
  constructor
  · rw [hsize]; exact h.size_pos
  · rw [hsize]; exact h.size_le
  · intro window; rw [hdistance]; exact h.distance_pos window
  · intro window; rw [hdistance, hsize]; exact h.distance_le window

theorem Sound.size_lt {core : Core} (h : core.Sound) : core.size < 2 ^ 63 :=
  Nat.lt_of_le_of_lt h.size_le (by decide)

theorem toInt_ofNat_distance {core : Core} (h : core.Sound) (window : Window) :
    (Int64.ofNat (core.distance window)).toInt = core.distance window :=
  Int64.toInt_ofNat_of_lt (Nat.lt_of_le_of_lt (h.distance_le window) h.size_lt)

theorem toInt_ofNat_size {core : Core} (h : core.Sound) :
    (Int64.ofNat core.size).toInt = core.size := Int64.toInt_ofNat_of_lt h.size_lt

theorem offset_lt {core : Core} (h : core.Sound) (window : Window) (value : Int64) :
    core.offset window value < core.size :=
  Window.offset_lt_size (h.distance_pos window) (h.distance_le window) h.size_lt value

@[simp] theorem shape_store (core : Core) (address : Nat) (insn : Instruction) :
    (core.store address insn).shape = core.shape := by
  simp [shape, store, size]

@[simp] theorem size_store (core : Core) (address : Nat) (insn : Instruction) :
    (core.store address insn).size = core.size :=
  size_eq_of_shape_eq (shape_store core address insn)

@[simp] theorem shape_bump (core : Core) (address : Nat) (delta : Int64) :
    (core.bump address delta).shape = core.shape := shape_store _ _ _

@[simp] theorem size_bump (core : Core) (address : Nat) (delta : Int64) :
    (core.bump address delta).size = core.size :=
  size_eq_of_shape_eq (shape_bump core address delta)

@[simp] theorem shape_storeAll (core : Core) (address : Nat) (code : List Instruction) :
    (core.storeAll address code).shape = core.shape := by
  induction code generalizing core address with
  | nil => rfl
  | cons insn code ih => rw [storeAll, ih, shape_store]

@[simp] theorem shape_resolve (core : Core) (pc : Nat) (field : Field) :
    (core.resolve pc field).2.shape = core.shape := by
  unfold resolve
  cases field.operand (core.fetch pc) with
  | mk mode value => cases mode <;> simp

@[simp] theorem size_resolve (core : Core) (pc : Nat) (field : Field) :
    (core.resolve pc field).2.size = core.size :=
  size_eq_of_shape_eq (shape_resolve core pc field)

@[simp] theorem shape_decode (core : Core) (pc : Nat) :
    (core.decode pc).2.shape = core.shape := by
  change ((core.resolve pc .a).2.resolve pc .b).2.shape = core.shape
  rw [shape_resolve, shape_resolve]

@[simp] theorem size_decode (core : Core) (pc : Nat) : (core.decode pc).2.size = core.size :=
  size_eq_of_shape_eq (shape_decode core pc)

@[simp] theorem shape_writeTarget (core : Core) (d : Decoded) (values : List Int64) :
    (core.writeTarget d values).shape = core.shape := shape_store _ _ _

@[simp] theorem shape_move (core : Core) (d : Decoded) :
    (core.move d).2.shape = core.shape := by
  unfold move
  split <;> simp

theorem shape_act (core : Core) (d : Decoded) : (core.act d).2.shape = core.shape := by
  unfold act
  cases d.insn.opcode <;> simp [compute, decrementJump]

theorem shape_execute (core : Core) (pc : Nat) : (core.execute pc).2.shape = core.shape := by
  change ((core.decode pc).2.act (core.decode pc).1).2.shape = core.shape
  rw [shape_act, shape_decode]

@[simp] theorem size_execute (core : Core) (pc : Nat) : (core.execute pc).2.size = core.size :=
  size_eq_of_shape_eq (shape_execute core pc)

theorem advance_lt {core : Core} (h : 0 < core.size) (address offset : Nat) :
    core.advance address offset < core.size := Nat.mod_lt _ h

theorem wrap_lt {core : Core} (h : 0 < core.size) (address : Int64) :
    core.wrap address < core.size := by
  have hpos : (0 : Int) < core.size := by omega
  have hlt := Int.emod_lt_of_pos address.toInt hpos
  have hnonneg := Int.emod_nonneg address.toInt (Int.ne_of_gt hpos)
  unfold wrap wrapAddress
  omega

/-- A resolved operand is seen in the core as it is after its side effect. -/
theorem exists_resolve_eq_targetAt (core : Core) (pc : Nat) (field : Field) :
    ∃ offsets, (core.resolve pc field).1 = (core.resolve pc field).2.targetAt pc offsets := by
  unfold resolve
  cases field.operand (core.fetch pc) with
  | mk mode value => cases mode <;> exact ⟨_, rfl⟩

end Core

structure Decoded.Within (size : Nat) (d : Decoded) : Prop where
  read_lt : d.a.read < size
  spawn_lt : d.a.write < size
  write_lt : d.b.write < size

structure Update.Within (size : Nat) (update : Update) : Prop where
  next_lt : ∀ address ∈ update.next, address < size
  spawn_lt : ∀ address ∈ update.spawn, address < size

namespace Update

theorem within_halt (size : Nat) : halt.Within size := by
  constructor <;> simp [halt]

theorem within_continueAt {size address : Nat} (h : address < size) :
    (continueAt address).Within size := by
  constructor <;> simp [continueAt, h]

end Update

namespace Core

theorem resolve_lt {core : Core} (h : 0 < core.size) (pc : Nat) (field : Field) :
    (core.resolve pc field).1.read < core.size ∧ (core.resolve pc field).1.write < core.size := by
  obtain ⟨offsets, ho⟩ := exists_resolve_eq_targetAt core pc field
  rw [← size_resolve core pc field] at h ⊢
  rw [ho]
  exact ⟨advance_lt h _ _, advance_lt h _ _⟩

theorem decode_within {core : Core} (h : 0 < core.size) (pc : Nat) :
    (core.decode pc).1.Within core.size := by
  have ha := resolve_lt h pc .a
  rw [← size_resolve core pc .a] at h
  have hb := resolve_lt h pc .b
  rw [size_resolve] at hb
  exact ⟨ha.1, ha.2, hb.2⟩

theorem next_within {core : Core} (h : 0 < core.size) (d : Decoded) :
    (core.next d).Within core.size := Update.within_continueAt (advance_lt h _ _)

theorem jumpIf_within {core : Core} (h : 0 < core.size) {d : Decoded} (hd : d.Within core.size)
    (taken : Bool) : (core.jumpIf d taken).Within core.size := by
  cases taken with
  | true => exact Update.within_continueAt hd.read_lt
  | false => exact next_within h d

theorem skipIf_within {core : Core} (h : 0 < core.size) (d : Decoded) (skipped : Bool) :
    (core.skipIf d skipped).Within core.size := by
  cases skipped with
  | true => exact Update.within_continueAt (advance_lt h _ _)
  | false => exact next_within h d

theorem move_within {core : Core} (h : 0 < core.size) (d : Decoded) :
    (core.move d).1.Within core.size := by
  unfold move
  split <;> exact next_within h d

theorem compute_eq (core : Core) (d : Decoded) (op : Operator) :
    core.compute d op =
      (if (op.applyAll (d.target.zip d.source)).2 then core.next d else .halt,
        core.writeTarget d (op.applyAll (d.target.zip d.source)).1) := rfl

theorem compute_within {core : Core} (h : 0 < core.size) (d : Decoded) (op : Operator) :
    (core.compute d op).1.Within core.size := by
  rw [compute_eq]
  dsimp only
  split
  · exact next_within h d
  · exact Update.within_halt _

theorem act_within {core : Core} (h : 0 < core.size) {d : Decoded} (hd : d.Within core.size) :
    (core.act d).1.Within core.size := by
  unfold act
  cases d.insn.opcode with
  | dat => exact Update.within_halt _
  | mov => exact move_within h d
  | add | sub | mul | div | mod => exact compute_within h d _
  | jmp => exact Update.within_continueAt hd.read_lt
  | jmz | jmn | djn => exact jumpIf_within h hd _
  | cmp | slt => exact skipIf_within h d _
  | spl => constructor <;> simp [advance_lt h, hd.spawn_lt]

/-- A task goes on, and a new one starts, at a cell of the core. -/
theorem execute_within {core : Core} (h : 0 < core.size) (pc : Nat) :
    (core.execute pc).1.Within core.size := by
  have hd := decode_within h pc
  rw [← size_decode core pc] at h hd ⊢
  exact act_within h hd

end Core

end CoreWar
