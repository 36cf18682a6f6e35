import CoreWar.Proofs.Rotation

namespace CoreWar

/-- The offsets of a window of `limit` cells in a ring of `size` cells: forward as far as the middle
of the window, and the others just below `size`, which count backward. -/
def Window.Covers (limit size offset : Nat) : Prop :=
  offset ≤ limit / 2 ∨ (size - (limit - limit / 2 - 1) ≤ offset ∧ offset < size)
  deriving Decidable

namespace Core

def offsetFrom (core : Core) (pc address : Nat) : Nat :=
  (address + (core.size - pc % core.size)) % core.size

theorem offsetFrom_advance {core : Core} (pc : Nat) {offset : Nat} (h : offset < core.size) :
    core.offsetFrom pc (core.advance pc offset) = offset := by
  rw [advance, Nat.add_comm]
  exact shiftAddress_back pc h

def InWindow (core : Core) (window : Window) (pc address : Nat) : Prop :=
  Window.Covers (core.distance window) core.size (core.offsetFrom pc address)
  deriving Decidable

theorem inWindow_iff_of_shape_eq {core other : Core} (h : core.shape = other.shape)
    (window : Window) (pc address : Nat) :
    core.InWindow window pc address ↔ other.InWindow window pc address := by
  rw [InWindow, InWindow, offsetFrom, offsetFrom, size_eq_of_shape_eq h, distance_eq_of_shape_eq h]

theorem covers_offset {core : Core} (h : core.Sound) (window : Window) (value : Int64) :
    Window.Covers (core.distance window) core.size (core.offset window value) := by
  have hlt := offset_lt h window value
  obtain ⟨_, hforward⟩ | ⟨hbackward, _⟩ :=
    Window.reaches_offset (h.distance_pos window) (h.distance_le window) h.size_lt value
  · left
    rw [offset]
    omega
  · right
    rw [offset] at hlt ⊢
    omega

theorem inWindow_advance {core : Core} (h : core.Sound) {window : Window} (pc : Nat) {offset : Nat}
    (hc : Window.Covers (core.distance window) core.size offset) :
    core.InWindow window pc (core.advance pc offset) := by
  have hle := h.distance_le window
  have hpos := h.distance_pos window
  have hlt : offset < core.size := by
    obtain hc | hc := hc
    · omega
    · exact hc.2
  rw [InWindow, offsetFrom_advance pc hlt]
  exact hc

theorem inWindow_pointerCell {core : Core} (h : core.Sound) (pc : Nat) (value : Int64) :
    core.InWindow .write pc (core.pointerCell pc value) :=
  inWindow_advance h pc (covers_offset h .write value)

theorem covers_followBoth {core : Core} (h : core.Sound) (pc : Nat) (value : Int64) :
    Window.Covers (core.distance .read) core.size (core.followBoth pc value).1 ∧
      Window.Covers (core.distance .write) core.size (core.followBoth pc value).2 :=
  ⟨covers_offset h .read _, covers_offset h .write _⟩

theorem targetAt_inWindow {core : Core} (h : core.Sound) (pc : Nat) (offsets : Nat × Nat)
    (hr : Window.Covers (core.distance .read) core.size offsets.1)
    (hw : Window.Covers (core.distance .write) core.size offsets.2) :
    core.InWindow .read pc (core.targetAt pc offsets).read ∧
      core.InWindow .write pc (core.targetAt pc offsets).write :=
  ⟨inWindow_advance h pc hr, inWindow_advance h pc hw⟩

theorem resolve_inWindow {core : Core} (h : core.Sound) (pc : Nat) (field : Field) :
    core.InWindow .read pc (core.resolve pc field).1.read ∧
      core.InWindow .write pc (core.resolve pc field).1.write := by
  have hzero : ∀ window, Window.Covers (core.distance window) core.size 0 :=
    fun window => .inl (Nat.zero_le _)
  unfold resolve
  cases field.operand (core.fetch pc) with
  | mk mode value =>
    have hf := covers_followBoth h pc value
    cases mode with
    | immediate => exact targetAt_inWindow h pc (0, 0) (hzero .read) (hzero .write)
    | direct =>
      exact targetAt_inWindow h pc (core.offset .read value, core.offset .write value)
        (covers_offset h .read value) (covers_offset h .write value)
    | indirect => exact targetAt_inWindow h pc _ hf.1 hf.2
    | preDecrement =>
      -- The offsets are found in the core after the decrement, which has the same windows.
      have hs := shape_bump core (core.pointerCell pc value) (-1)
      have hb := h.of_shape_eq hs
      have hf' := covers_followBoth hb pc value
      have ht := targetAt_inWindow hb pc _ hf'.1 hf'.2
      rw [inWindow_iff_of_shape_eq hs, inWindow_iff_of_shape_eq hs] at ht
      exact ht
    | postIncrement =>
      have hs := shape_bump core (core.pointerCell pc value) 1
      simp only [targetAt, advance_eq_of_shape_eq hs]
      exact targetAt_inWindow h pc _ hf.1 hf.2

/-- The cells that a decoded instruction may go on at, spawn at and write to. -/
theorem decode_inWindow {core : Core} (h : core.Sound) (pc : Nat) :
    core.InWindow .read pc (core.decode pc).1.a.read ∧
      core.InWindow .write pc (core.decode pc).1.a.write ∧
      core.InWindow .write pc (core.decode pc).1.b.write := by
  have ha := resolve_inWindow h pc .a
  have hs := shape_resolve core pc .a
  have hb := (resolve_inWindow (h.of_shape_eq hs) pc .b).2
  rw [inWindow_iff_of_shape_eq hs] at hb
  exact ⟨ha.1, ha.2, hb⟩

end Core

end CoreWar
