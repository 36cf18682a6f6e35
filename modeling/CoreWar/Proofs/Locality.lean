import CoreWar.Proofs.Footprint

namespace CoreWar.Core

theorem fetch_of_size_le {core : Core} {address : Nat} (h : core.size ≤ address) :
    core.fetch address = .empty := by
  have hcells : core.cells.size ≤ address := h
  simp [fetch, hcells]

def Visible (core : Core) (pc address : Nat) : Prop :=
  core.InWindow .read pc address ∨ core.InWindow .write pc address
  deriving Decidable

/-- Cores of one shape with the same cells in the windows around `pc`. -/
structure AgreeAround (pc : Nat) (core other : Core) : Prop where
  shape_eq : core.shape = other.shape
  fetch_eq : ∀ address, address < core.size → core.Visible pc address →
    core.fetch address = other.fetch address

theorem visible_of_inWindow {core : Core} {window : Window} {pc address : Nat}
    (h : core.InWindow window pc address) : core.Visible pc address := by
  cases window with
  | read => exact .inl h
  | write => exact .inr h

namespace AgreeAround

variable {core other : Core} {pc : Nat}

theorem offset_eq (h : AgreeAround pc core other) (window : Window) (value : Int64) :
    core.offset window value = other.offset window value :=
  offset_eq_of_shape_eq h.shape_eq window value

theorem advance_eq (h : AgreeAround pc core other) (address offset : Nat) :
    core.advance address offset = other.advance address offset :=
  advance_eq_of_shape_eq h.shape_eq address offset

theorem fetch_advance (h : AgreeAround pc core other) (hs : core.Sound) {window : Window}
    {offset : Nat} (hc : Window.Covers (core.distance window) core.size offset) :
    core.fetch (core.advance pc offset) = other.fetch (core.advance pc offset) := by
  apply h.fetch_eq
  · exact advance_lt hs.size_pos pc offset
  · exact visible_of_inWindow (inWindow_advance hs pc hc)

theorem fetch_pc (h : AgreeAround pc core other) (hs : core.Sound) :
    core.fetch pc = other.fetch pc := by
  by_cases hpc : pc < core.size
  · have hzero : Window.Covers (core.distance .read) core.size 0 := .inl (Nat.zero_le _)
    have hfetch := h.fetch_advance hs hzero
    rwa [advance, Nat.add_zero, Nat.mod_eq_of_lt hpc] at hfetch
  · have hpc' : ¬ pc < other.size := by rwa [← size_eq_of_shape_eq h.shape_eq]
    rw [fetch_of_size_le (Nat.not_lt.mp hpc), fetch_of_size_le (Nat.not_lt.mp hpc')]

theorem store (h : AgreeAround pc core other) {address : Nat} (ha : address < core.size)
    (insn : Instruction) : AgreeAround pc (core.store address insn) (other.store address insn) := by
  have ha' : address < other.size := by
    rw [← size_eq_of_shape_eq h.shape_eq]
    exact ha
  constructor
  · rw [shape_store, shape_store]
    exact h.shape_eq
  · intro cell hlt hv
    rw [fetch_store ha, fetch_store ha']
    by_cases he : address = cell
    · rw [if_pos he, if_pos he]
    · rw [if_neg he, if_neg he]
      rw [size_store] at hlt
      rw [Visible, inWindow_iff_of_shape_eq (shape_store core address insn),
        inWindow_iff_of_shape_eq (shape_store core address insn)] at hv
      exact h.fetch_eq cell hlt hv

theorem pointerCell_eq (h : AgreeAround pc core other) (value : Int64) :
    core.pointerCell pc value = other.pointerCell pc value := by
  rw [pointerCell, pointerCell, h.offset_eq, h.advance_eq]

theorem bump (h : AgreeAround pc core other) (hs : core.Sound) (value delta : Int64) :
    AgreeAround pc (core.bump (core.pointerCell pc value) delta)
      (other.bump (core.pointerCell pc value) delta) := by
  have hcell : core.fetch (core.pointerCell pc value) = other.fetch (core.pointerCell pc value) :=
    h.fetch_advance hs (covers_offset hs .write value)
  rw [Core.bump, Core.bump, ← hcell, ← size_eq_of_shape_eq h.shape_eq]
  exact h.store (advance_lt hs.size_pos _ _) _

theorem follow_eq (h : AgreeAround pc core other) (hs : core.Sound) (window : Window)
    (value : Int64) :
    core.follow window pc (core.offset window value) =
      other.follow window pc (core.offset window value) := by
  have hcell := h.fetch_advance hs (covers_offset hs window value)
  rw [follow, follow, hcell, h.offset_eq, h.advance_eq]

theorem followBoth_eq (h : AgreeAround pc core other) (hs : core.Sound) (value : Int64) :
    core.followBoth pc value = other.followBoth pc value := by
  rw [followBoth, followBoth, h.follow_eq hs, h.follow_eq hs, h.offset_eq, h.offset_eq]

theorem targetAt_eq (h : AgreeAround pc core other) (hs : core.Sound) (offsets : Nat × Nat)
    (hr : Window.Covers (core.distance .read) core.size offsets.1) :
    core.targetAt pc offsets = other.targetAt pc offsets := by
  have hcell := h.fetch_advance hs hr
  simp only [targetAt, ← h.advance_eq, hcell]

theorem resolve (h : AgreeAround pc core other) (hs : core.Sound) (field : Field) :
    (core.resolve pc field).1 = (other.resolve pc field).1 ∧
      AgreeAround pc (core.resolve pc field).2 (other.resolve pc field).2 := by
  unfold Core.resolve
  rw [← h.fetch_pc hs]
  cases field.operand (core.fetch pc) with
  | mk mode value =>
    have hf := covers_followBoth hs pc value
    have hb := h.bump hs value
    cases mode with
    | immediate => exact ⟨h.targetAt_eq hs (0, 0) (.inl (Nat.zero_le _)), h⟩
    | direct =>
      simp only [← h.offset_eq]
      exact ⟨h.targetAt_eq hs _ (covers_offset hs .read value), h⟩
    | indirect =>
      simp only [← h.followBoth_eq hs]
      exact ⟨h.targetAt_eq hs _ hf.1, h⟩
    | preDecrement =>
      have hs' := hs.of_shape_eq (shape_bump core (core.pointerCell pc value) (-1))
      simp only [← h.pointerCell_eq, ← (hb (-1)).followBoth_eq hs']
      exact ⟨(hb (-1)).targetAt_eq hs' _ (covers_followBoth hs' pc value).1, hb (-1)⟩
    | postIncrement =>
      have hs' := hs.of_shape_eq (shape_bump core (core.pointerCell pc value) 1)
      simp only [← h.pointerCell_eq, ← h.followBoth_eq hs]
      refine ⟨(hb 1).targetAt_eq hs' _ ?_, hb 1⟩
      rw [size_bump, distance_eq_of_shape_eq (shape_bump _ _ _)]
      exact hf.1

theorem decode (h : AgreeAround pc core other) (hs : core.Sound) :
    (core.decode pc).1 = (other.decode pc).1 ∧
      AgreeAround pc (core.decode pc).2 (other.decode pc).2 := by
  obtain ⟨ha, hafter⟩ := h.resolve hs .a
  obtain ⟨hb, hend⟩ := hafter.resolve (hs.of_shape_eq (shape_resolve core pc .a)) .b
  refine ⟨?_, hend⟩
  simp only [Core.decode, h.fetch_pc hs, ha, hb]

variable {d : Decoded}

theorem writeTarget (h : AgreeAround pc core other) (hw : core.InWindow .write pc d.b.write)
    (hlt : d.b.write < core.size) (values : List Int64) :
    AgreeAround pc (core.writeTarget d values) (other.writeTarget d values) := by
  rw [Core.writeTarget, Core.writeTarget, ← h.fetch_eq d.b.write hlt (visible_of_inWindow hw)]
  exact h.store hlt _

theorem next_eq (h : AgreeAround pc core other) (d : Decoded) : core.next d = other.next d := by
  rw [next, next, h.advance_eq]

theorem jumpIf_eq (h : AgreeAround pc core other) (d : Decoded) (taken : Bool) :
    core.jumpIf d taken = other.jumpIf d taken := by
  rw [jumpIf, jumpIf, h.next_eq]

theorem skipIf_eq (h : AgreeAround pc core other) (d : Decoded) (skipped : Bool) :
    core.skipIf d skipped = other.skipIf d skipped := by
  rw [skipIf, skipIf, h.next_eq, h.advance_eq]

theorem move (h : AgreeAround pc core other) (hw : core.InWindow .write pc d.b.write)
    (hlt : d.b.write < core.size) :
    (core.move d).1 = (other.move d).1 ∧ AgreeAround pc (core.move d).2 (other.move d).2 := by
  rw [Core.move, Core.move, h.next_eq]
  by_cases hi : d.insn.modifier = .i
  · rw [if_pos hi, if_pos hi]
    exact ⟨rfl, h.store hlt _⟩
  · rw [if_neg hi, if_neg hi]
    exact ⟨rfl, h.writeTarget hw hlt _⟩

theorem compute (h : AgreeAround pc core other) (hw : core.InWindow .write pc d.b.write)
    (hlt : d.b.write < core.size) (op : Operator) :
    (core.compute d op).1 = (other.compute d op).1 ∧
      AgreeAround pc (core.compute d op).2 (other.compute d op).2 := by
  rw [compute_eq, compute_eq, h.next_eq]
  exact ⟨rfl, h.writeTarget hw hlt _⟩

theorem act (h : AgreeAround pc core other) (hw : core.InWindow .write pc d.b.write)
    (hlt : d.b.write < core.size) :
    (core.act d).1 = (other.act d).1 ∧ AgreeAround pc (core.act d).2 (other.act d).2 := by
  unfold Core.act
  cases d.insn.opcode with
  | dat | jmp => exact ⟨rfl, h⟩
  | mov => exact h.move hw hlt
  | add | sub | mul | div | mod => exact h.compute hw hlt _
  | jmz | jmn => exact ⟨h.jumpIf_eq d _, h⟩
  | djn => exact ⟨h.jumpIf_eq d _, h.writeTarget hw hlt _⟩
  | cmp | slt => exact ⟨h.skipIf_eq d _, h⟩
  | spl =>
    simp only [h.advance_eq]
    exact ⟨trivial, h⟩

theorem execute (h : AgreeAround pc core other) (hs : core.Sound) :
    (core.execute pc).1 = (other.execute pc).1 ∧
      AgreeAround pc (core.execute pc).2 (other.execute pc).2 := by
  obtain ⟨hd, hafter⟩ := h.decode hs
  have hw := (decode_inWindow hs pc).2.2
  rw [← inWindow_iff_of_shape_eq (shape_decode core pc)] at hw
  have hlt := (decode_within hs.size_pos pc).write_lt
  rw [← size_decode core pc] at hlt
  rw [execute_eq, execute_eq, ← hd]
  exact hafter.act hw hlt

end AgreeAround

/-- A task goes on at one of the next two cells or where the A operand reads, and a new task starts
where the A operand writes. -/
structure Leads (core : Core) (d : Decoded) (update : Update) : Prop where
  next : ∀ address ∈ update.next,
    address = core.advance d.pc 1 ∨ address = core.advance d.pc 2 ∨ address = d.a.read
  spawn : ∀ address ∈ update.spawn, address = d.a.write

theorem leads_halt (core : Core) (d : Decoded) : core.Leads d .halt := by
  constructor <;> simp [Update.halt]

theorem leads_next (core : Core) (d : Decoded) : core.Leads d (core.next d) := by
  constructor <;> simp [next, Update.continueAt]

theorem leads_jump (core : Core) (d : Decoded) : core.Leads d (.continueAt d.a.read) := by
  constructor <;> simp [Update.continueAt]

theorem leads_jumpIf (core : Core) (d : Decoded) (taken : Bool) :
    core.Leads d (core.jumpIf d taken) := by
  cases taken with
  | true => exact leads_jump core d
  | false => exact leads_next core d

theorem leads_skipIf (core : Core) (d : Decoded) (skipped : Bool) :
    core.Leads d (core.skipIf d skipped) := by
  cases skipped with
  | true => constructor <;> simp [skipIf, Update.continueAt]
  | false => exact leads_next core d

theorem leads_act (core : Core) (d : Decoded) : core.Leads d (core.act d).1 := by
  unfold act
  cases d.insn.opcode with
  | dat => exact leads_halt core d
  | mov =>
    rw [move]
    by_cases hi : d.insn.modifier = .i
    · rw [if_pos hi]
      exact leads_next core d
    · rw [if_neg hi]
      exact leads_next core d
  | add | sub | mul | div | mod =>
    simp only [compute_eq]
    split
    · exact leads_next core d
    · exact leads_halt core d
  | jmp => exact leads_jump core d
  | jmz | jmn | djn => exact leads_jumpIf core d _
  | cmp | slt => exact leads_skipIf core d _
  | spl => constructor <;> simp

theorem leads_execute {core : Core} (h : core.Sound) (pc : Nat) :
    (∀ address ∈ (core.execute pc).1.next, address = core.advance pc 1 ∨
      address = core.advance pc 2 ∨ core.InWindow .read pc address) ∧
    ∀ address ∈ (core.execute pc).1.spawn, core.InWindow .write pc address := by
  have hl := leads_act (core.decode pc).2 (core.decode pc).1
  obtain ⟨hread, hwrite, _⟩ := decode_inWindow h pc
  rw [execute_eq]
  constructor
  · intro address hn
    have hs := shape_decode core pc
    rw [← advance_eq_of_shape_eq hs, ← advance_eq_of_shape_eq hs]
    obtain hone | htwo | hjump := hl.next address hn
    · exact .inl hone
    · exact .inr (.inl htwo)
    · right
      right
      rw [hjump]
      exact hread
  · intro address hn
    rw [hl.spawn address hn]
    exact hwrite

/-- If two cores agree in the windows around an instruction, it does the same in both, and they
agree there afterwards; all other cells stay as they were. A task goes on at one of the next two
cells or in the read window, and a new task starts in the write window. -/
theorem execute_local {core other : Core} (h : core.Sound) (hshape : core.shape = other.shape)
    {pc : Nat} (hagree : ∀ address, address < core.size →
      core.InWindow .read pc address ∨ core.InWindow .write pc address →
        core.fetch address = other.fetch address) :
    (core.execute pc).1 = (other.execute pc).1 ∧
    (∀ address, address < core.size →
      core.InWindow .read pc address ∨ core.InWindow .write pc address →
        (core.execute pc).2.fetch address = (other.execute pc).2.fetch address) ∧
    (∀ address, ¬ core.InWindow .read pc address → ¬ core.InWindow .write pc address →
      (core.execute pc).2.fetch address = core.fetch address ∧
        (other.execute pc).2.fetch address = other.fetch address) ∧
    (∀ address ∈ (core.execute pc).1.next, address = core.advance pc 1 ∨
      address = core.advance pc 2 ∨ core.InWindow .read pc address) ∧
    ∀ address ∈ (core.execute pc).1.spawn, core.InWindow .write pc address := by
  have hagreed : AgreeAround pc core other := ⟨hshape, hagree⟩
  obtain ⟨hupdate, hafter⟩ := hagreed.execute h
  have hshape' := shape_execute core pc
  refine ⟨hupdate, ?_, ?_, leads_execute h pc⟩
  · intro address hlt hv
    apply hafter.fetch_eq
    · rw [size_execute]
      exact hlt
    · rw [Visible, inWindow_iff_of_shape_eq hshape', inWindow_iff_of_shape_eq hshape']
      exact hv
  · intro address _ hout
    refine ⟨fetch_execute_of_not_inWindow h hout, ?_⟩
    apply fetch_execute_of_not_inWindow (h.of_shape_eq hshape.symm)
    rw [← inWindow_iff_of_shape_eq hshape]
    exact hout

/-- The cells 4 to 9 are out of sight of the addition at address 0. -/
theorem execute_local_adder :
    adder.Sound ∧ adder.shape = (adder.store 5 ⟨.jmp, .b, ⟨.direct, 1⟩, ⟨.direct, 1⟩⟩).shape ∧
    ¬ adder.Visible 0 5 ∧
    (adder.execute 0).1 = ((adder.store 5 ⟨.jmp, .b, ⟨.direct, 1⟩, ⟨.direct, 1⟩⟩).execute 0).1 := by
  have hagree : ∀ address, address < adder.size →
      adder.InWindow .read 0 address ∨ adder.InWindow .write 0 address →
        adder.fetch address =
          (adder.store 5 ⟨.jmp, .b, ⟨.direct, 1⟩, ⟨.direct, 1⟩⟩).fetch address := by decide
  have hshape : adder.shape = (adder.store 5 ⟨.jmp, .b, ⟨.direct, 1⟩, ⟨.direct, 1⟩⟩).shape := rfl
  exact ⟨sound_adder, hshape, by decide, (execute_local sound_adder hshape hagree).1⟩

end CoreWar.Core
