import CoreWar.Proofs.Footprint
import Mathlib.Data.Int.ModEq

namespace CoreWar

def SumFits (x y : Int64) : Prop :=
  Int64.minValue.toInt ≤ x.toInt + y.toInt ∧ x.toInt + y.toInt ≤ Int64.maxValue.toInt
  deriving Decidable

theorem toInt_add_of_sumFits {x y : Int64} (h : SumFits x y) :
    (x + y).toInt = x.toInt + y.toInt := by
  obtain ⟨hlow, hhigh⟩ := h
  rw [Int64.toInt_minValue] at hlow
  rw [Int64.toInt_maxValue] at hhigh
  rw [Int64.toInt_add]
  exact Int.bmod_eq_of_le (by omega) (by omega)

theorem toInt_add_of_not_sumFits {x y : Int64} (h : ¬ SumFits x y) :
    (x + y).toInt = x.toInt + y.toInt - 2 ^ 64 ∨ (x + y).toInt = x.toInt + y.toInt + 2 ^ 64 := by
  have hx := x.le_toInt
  have hx' := x.toInt_lt
  have hy := y.le_toInt
  have hy' := y.toInt_lt
  rw [SumFits, Int64.toInt_minValue, Int64.toInt_maxValue] at h
  rw [Int64.toInt_add, Int.bmod_def]
  split <;> omega

theorem toInt_add_modEq_iff (x y : Int64) (n : Nat) :
    (x + y).toInt ≡ x.toInt + y.toInt [ZMOD n] ↔ n ∣ 2 ^ 64 ∨ SumFits x y := by
  have hdvd : (n : Int) ∣ 2 ^ 64 ↔ n ∣ 2 ^ 64 := by exact_mod_cast Int.natCast_dvd_natCast
  by_cases hfits : SumFits x y
  · rw [toInt_add_of_sumFits hfits]
    exact iff_of_true rfl (.inr hfits)
  · rw [Int.modEq_iff_dvd, ← hdvd, or_iff_left hfits]
    obtain hsum | hsum := toInt_add_of_not_sumFits hfits
    · rw [hsum, sub_sub_cancel]
    · rw [hsum, sub_add_cancel_left, Int.dvd_neg]

namespace Core

/-- A sound core whose cells divide into whole windows, as validated settings make it. -/
structure Tiled (core : Core) : Prop extends Sound core where
  distance_dvd : ∀ window, core.distance window ∣ core.size

theorem Tiled.of_shape_eq {core other : Core} (h : core.Tiled) (hs : other.shape = core.shape) :
    other.Tiled := by
  refine ⟨h.toSound.of_shape_eq hs, ?_⟩
  intro window
  rw [distance_eq_of_shape_eq hs, size_eq_of_shape_eq hs]
  exact h.distance_dvd window

theorem tiled_ofSettings {settings : Settings} (h : settings.Valid)
    (hsize : settings.coreSize ≤ maxSize) : (ofSettings settings).Tiled := by
  refine ⟨sound_ofSettings h hsize, ?_⟩
  intro window
  rw [size_ofSettings]
  cases window with
  | read => exact (h.distance .read).2.2
  | write => exact (h.distance .write).2.2

theorem offset_modEq {core : Core} (h : core.Tiled) (window : Window) (value : Int64) :
    (core.offset window value : Int) ≡ value.toInt [ZMOD core.distance window] :=
  Window.offset_modEq_address (h.distance_pos window) (h.distance_le window) h.size_lt
    (h.distance_dvd window) value

theorem advance_sub_modEq {core : Core} (h : core.Tiled) (window : Window) (pc offset : Nat) :
    (core.advance pc offset : Int) - pc ≡ offset [ZMOD core.distance window] := by
  have hsize : (core.advance pc offset : Int) ≡ pc + offset [ZMOD core.size] := by
    rw [advance, Int.natCast_emod, Int.natCast_add]
    exact Int.mod_modEq _ _
  have hwindow := hsize.of_dvd (Int.natCast_dvd_natCast.mpr (h.distance_dvd window))
  have hsub := hwindow.sub_right pc
  rwa [add_sub_cancel_left] at hsub

/-- An offset followed by a B value is the sum of the two, as far as words can hold it. -/
theorem advance_follow_modEq_iff {core : Core} (h : core.Tiled) (window : Window) (pc : Nat)
    (value : Int64) :
    (core.advance pc (core.follow window pc (core.offset window value)) : Int) - pc ≡
        value.toInt + (core.fetch (core.advance pc (core.offset window value))).b.value.toInt
        [ZMOD core.distance window] ↔
      core.distance window ∣ 2 ^ 64 ∨ SumFits (.ofNat (core.offset window value))
        (core.fetch (core.advance pc (core.offset window value))).b.value := by
  have hword : (Int64.ofNat (core.offset window value)).toInt = core.offset window value := by
    have hlt := offset_lt h.toSound window value
    exact Int64.toInt_ofNat_of_lt (Nat.lt_trans hlt h.size_lt)
  have hleft := (advance_sub_modEq h window pc
    (core.follow window pc (core.offset window value))).trans (offset_modEq h window _)
  have hright := (offset_modEq h window value).add_right
    (core.fetch (core.advance pc (core.offset window value))).b.value.toInt
  rw [← toInt_add_modEq_iff, hword]
  constructor
  · intro hsum
    exact hleft.symm.trans (hsum.trans hright.symm)
  · intro hsum
    exact hleft.trans (hsum.trans hright)

end Core

def Mode.delta? : Mode → Option Int64
  | preDecrement => some (-1)
  | postIncrement => some 1
  | _ => none

def Target.address (target : Target) : Window → Nat
  | .read => target.read
  | .write => target.write

namespace Core

/-- The core in which an indirect operand is followed, which is after a decrement and before an
increment. -/
def followed (core : Core) (pc : Nat) (field : Field) : Core :=
  if (field.operand (core.fetch pc)).mode = .preDecrement then (core.resolve pc field).2 else core

/-- The B value of the cell that an indirect operand goes through in a window. -/
def passed (core : Core) (window : Window) (pc : Nat) (field : Field) : Int64 :=
  ((core.followed pc field).fetch
    (core.advance pc (core.offset window (field.operand (core.fetch pc)).value))).b.value

/-- An indirect operand adds up modulo the sizes of the windows and of the core. All sums are those
of integers. -/
structure AddsModulo (core : Core) (pc : Nat) (field : Field) : Prop where
  address : ∀ window, ((core.resolve pc field).1.address window : Int) - pc ≡
    (field.operand (core.fetch pc)).value.toInt + (core.passed window pc field).toInt
    [ZMOD core.distance window]
  side : ∀ delta ∈ (field.operand (core.fetch pc)).mode.delta?,
    ((core.resolve pc field).2.fetch
        (core.pointerCell pc (field.operand (core.fetch pc)).value)).b.value.toInt =
      ((core.fetch (core.pointerCell pc (field.operand (core.fetch pc)).value)).b.value.toInt +
        delta.toInt) % core.size

section

variable {core : Core} {pc : Nat} {field : Field} {mode : Mode} {value : Int64}

theorem followed_eq (hop : field.operand (core.fetch pc) = ⟨mode, value⟩) :
    core.followed pc field =
      if mode = .preDecrement then core.bump (core.pointerCell pc value) (-1) else core := by
  rw [followed, hop]
  by_cases hmode : mode = .preDecrement
  · subst hmode
    rw [if_pos rfl, if_pos rfl, resolve, hop]
  · rw [if_neg hmode, if_neg hmode]

theorem shape_followed (core : Core) (pc : Nat) (field : Field) :
    (core.followed pc field).shape = core.shape := by
  rw [followed]
  split
  · exact shape_resolve core pc field
  · rfl

theorem address_resolve (hop : field.operand (core.fetch pc) = ⟨mode, value⟩)
    (hmode : mode.isIndirect) (window : Window) :
    (core.resolve pc field).1.address window =
      (core.followed pc field).advance pc ((core.followed pc field).follow window pc
        ((core.followed pc field).offset window value)) := by
  rw [followed_eq hop, resolve, hop]
  cases mode with
  | immediate | direct => cases hmode
  | indirect =>
    rw [if_neg Mode.noConfusion]
    cases window <;> rfl
  | preDecrement =>
    rw [if_pos rfl]
    cases window <;> rfl
  | postIncrement =>
    rw [if_neg Mode.noConfusion]
    have hs := shape_bump core (core.pointerCell pc value) 1
    cases window <;> exact advance_eq_of_shape_eq hs pc _

theorem resolve_snd_of_delta? (hop : field.operand (core.fetch pc) = ⟨mode, value⟩) {delta : Int64}
    (hdelta : mode.delta? = some delta) :
    (core.resolve pc field).2 = core.bump (core.pointerCell pc value) delta := by
  rw [resolve, hop]
  cases mode with
  | immediate | direct | indirect => cases hdelta
  | preDecrement | postIncrement =>
    cases hdelta
    rfl

theorem toInt_bumped (h : core.Sound) (value delta : Int64) :
    (Int64.ofInt ((value + delta).toInt % core.size)).toInt =
      (value + delta).toInt % core.size := by
  have hpos := h.size_pos
  have hsize := h.size_lt
  have hlow := Int.emod_nonneg (value + delta).toInt (b := core.size) (by omega)
  have hhigh := Int.emod_lt_of_pos (value + delta).toInt (b := core.size) (by omega)
  exact Int64.toInt_ofInt_of_le (by omega) (by omega)

theorem address_modEq_iff (h : core.Tiled) (hop : field.operand (core.fetch pc) = ⟨mode, value⟩)
    (hmode : mode.isIndirect) (window : Window) :
    ((core.resolve pc field).1.address window : Int) - pc ≡
        value.toInt + (core.passed window pc field).toInt [ZMOD core.distance window] ↔
      core.distance window ∣ 2 ^ 64 ∨
        SumFits (.ofNat (core.offset window value)) (core.passed window pc field) := by
  have hs := shape_followed core pc field
  have hfollow := advance_follow_modEq_iff (h.of_shape_eq hs) window pc value
  rw [← address_resolve hop hmode, distance_eq_of_shape_eq hs, offset_eq_of_shape_eq hs,
    advance_eq_of_shape_eq hs] at hfollow
  rw [passed, hop]
  exact hfollow

theorem side_eq_iff (h : core.Tiled) (hop : field.operand (core.fetch pc) = ⟨mode, value⟩)
    {delta : Int64} (hdelta : mode.delta? = some delta) :
    ((core.resolve pc field).2.fetch (core.pointerCell pc value)).b.value.toInt =
        ((core.fetch (core.pointerCell pc value)).b.value.toInt + delta.toInt) % core.size ↔
      core.size ∣ 2 ^ 64 ∨ SumFits (core.fetch (core.pointerCell pc value)).b.value delta := by
  have hcell : core.pointerCell pc value < core.size := advance_lt h.size_pos _ _
  rw [resolve_snd_of_delta? hop hdelta, bump, fetch_store hcell, if_pos rfl, ← toInt_add_modEq_iff]
  change (Int64.ofInt _).toInt = _ ↔ _
  rw [toInt_bumped h.toSound]
  exact Iff.rfl

theorem exists_side_eq (h : core.Sound) (hop : field.operand (core.fetch pc) = ⟨mode, value⟩)
    {delta : Int64} (hdelta : mode.delta? = some delta) :
    ∃ left : Int64, 0 ≤ left.toInt ∧ left.toInt < core.size ∧
      (core.resolve pc field).2 = core.store (core.pointerCell pc value)
        (Field.b.set left (core.fetch (core.pointerCell pc value))) := by
  have hpos : (0 : Int) < core.size := Int.natCast_pos.mpr h.size_pos
  rw [resolve_snd_of_delta? hop hdelta]
  refine ⟨_, ?_, ?_, rfl⟩
  · rw [toInt_bumped h]
    exact Int.emod_nonneg _ (Int.ne_of_gt hpos)
  · rw [toInt_bumped h]
    exact Int.emod_lt_of_pos _ hpos

end

/-- An indirect operand adds up modulo the sizes of the windows and of the core exactly if no sum of
words wraps around, other than those for which `2 ^ 64` is a multiple of the size. In any case a
decrement or an increment leaves a B value below the size of the core and changes nothing else. -/
theorem resolve_addsModulo_iff {core : Core} (h : core.Tiled) {pc : Nat} {field : Field}
    {mode : Mode} {value : Int64} (hop : field.operand (core.fetch pc) = ⟨mode, value⟩)
    (hmode : mode.isIndirect) :
    (core.AddsModulo pc field ↔
      (∀ window, core.distance window ∣ 2 ^ 64 ∨
        SumFits (.ofNat (core.offset window value)) (core.passed window pc field)) ∧
      ∀ delta ∈ mode.delta?, core.size ∣ 2 ^ 64 ∨
        SumFits (core.fetch (core.pointerCell pc value)).b.value delta) ∧
    ∀ delta ∈ mode.delta?, ∃ left : Int64, 0 ≤ left.toInt ∧ left.toInt < core.size ∧
      (core.resolve pc field).2 = core.store (core.pointerCell pc value)
        (Field.b.set left (core.fetch (core.pointerCell pc value))) := by
  refine ⟨?_, fun delta hdelta => exists_side_eq h.toSound hop hdelta⟩
  constructor
  · rintro ⟨haddress, hside⟩
    rw [hop] at haddress hside
    constructor
    · intro window
      exact (address_modEq_iff h hop hmode window).mp (haddress window)
    · intro delta hdelta
      exact (side_eq_iff h hop hdelta).mp (hside delta hdelta)
  · rintro ⟨hwindows, hdeltas⟩
    constructor
    · intro window
      rw [hop]
      exact (address_modEq_iff h hop hmode window).mpr (hwindows window)
    · rw [hop]
      intro delta hdelta
      exact (side_eq_iff h hop hdelta).mpr (hdeltas delta hdelta)

/-- An increment through cell 3 for reading and cell 11 for writing. The way from cell 11 wraps
around, in a window of four cells. -/
def brink : Core :=
  (((ofSettings .narrow).store 0 ⟨.mov, .i, ⟨.postIncrement, 3⟩, ⟨.direct, 0⟩⟩).store 3
    ⟨.dat, .f, ⟨.immediate, 0⟩, ⟨.immediate, -5⟩⟩).store 11
    ⟨.dat, .f, ⟨.immediate, 0⟩, ⟨.immediate, Int64.maxValue - 1⟩⟩

theorem tiled_brink : brink.Tiled :=
  (tiled_ofSettings ((Settings.validate_eq_ok_iff .narrow).mp rfl) (by decide)).of_shape_eq rfl

theorem resolve_addsModulo_iff_brink :
    brink.Tiled ∧ Field.a.operand (brink.fetch 0) = ⟨.postIncrement, 3⟩ ∧
    ¬ SumFits (.ofNat (brink.offset .write 3)) (brink.passed .write 0 .a) ∧
    brink.AddsModulo 0 .a ∧ ∃ left : Int64, 0 ≤ left.toInt ∧ left.toInt < 12 ∧
      (brink.resolve 0 .a).2 = brink.store 11 (Field.b.set left (brink.fetch 11)) := by
  have hop : Field.a.operand (brink.fetch 0) = ⟨.postIncrement, 3⟩ := rfl
  obtain ⟨hiff, hside⟩ := resolve_addsModulo_iff tiled_brink hop rfl
  refine ⟨tiled_brink, hop, by decide, hiff.mpr ⟨?_, ?_⟩, hside 1 rfl⟩
  · intro window
    cases window with
    | read => exact .inr (by decide)
    | write => exact .inl ⟨2 ^ 62, rfl⟩
  · intro delta hdelta
    cases hdelta
    exact .inr (by decide)

end Core

def Settings.ten : Settings :=
  { narrow with coreSize := 10, readDistance := 10, writeDistance := 10 }

namespace Core

def brim : Core :=
  ((ofSettings .ten).store 0 ⟨.mov, .i, ⟨.postIncrement, 1⟩, ⟨.direct, 0⟩⟩).store 1
    ⟨.dat, .f, ⟨.immediate, 0⟩, ⟨.immediate, Int64.maxValue⟩⟩

/-- Both sums are `2 ^ 63`, which is 8 modulo the size of the core. The operand comes to cell 2, and
the increment leaves 2. -/
theorem not_addsModulo_brim :
    brim.Tiled ∧ Field.a.operand (brim.fetch 0) = ⟨.postIncrement, 1⟩ ∧
    (1 + (brim.passed .read 0 .a).toInt) % 10 = 8 ∧ (brim.resolve 0 .a).1.read = 2 ∧
    (brim.resolve 0 .a).1.write = 2 ∧
    ((brim.fetch 1).b.value.toInt + 1) % 10 = 8 ∧
    ((brim.resolve 0 .a).2.fetch 1).b.value = 2 ∧ ¬ brim.AddsModulo 0 .a := by
  have htiled : brim.Tiled :=
    (tiled_ofSettings ((Settings.validate_eq_ok_iff .ten).mp rfl) (by decide)).of_shape_eq rfl
  refine ⟨htiled, rfl, by decide, by decide, by decide, by decide, by decide, ?_⟩
  intro hadds
  exact absurd (hadds.address .read) (by decide)

end Core

end CoreWar
