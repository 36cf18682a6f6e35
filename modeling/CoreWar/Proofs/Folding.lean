import CoreWar.Core.Basic
import Mathlib.Data.Int.ModEq
import Mathlib.NumberTheory.Divisors

namespace CoreWar.Window

variable {limit size : Nat}

/-- A signed offset that lies in a window of `limit` cells around an instruction. -/
def Reaches (limit : Nat) (offset : Int) : Prop :=
  -((limit : Int) - limit / 2 - 1) ≤ offset ∧ offset ≤ limit / 2
  deriving Decidable

/-- The signed offset of an address: its remainder, or one window less from past the middle on. -/
def fold (limit : Nat) (address : Int) : Int :=
  if (limit / 2 : Int) < address % limit then address % limit - limit else address % limit

theorem reaches_fold (hpos : 0 < limit) (address : Int) : Reaches limit (fold limit address) := by
  have hnonneg := Int.emod_nonneg address (b := limit) (by omega)
  have hlt := Int.emod_lt_of_pos address (b := limit) (by omega)
  unfold fold
  split <;> constructor <;> omega

theorem fold_modEq (limit : Nat) (address : Int) : fold limit address ≡ address [ZMOD limit] := by
  have hmod := Int.mod_modEq address limit
  unfold fold
  split
  · exact Int.sub_modulus_modEq_iff.mpr hmod
  · exact hmod

theorem fold_congr {address other : Int} (h : other ≡ address [ZMOD limit]) :
    fold limit other = fold limit address := by
  unfold fold
  rw [h.eq]

theorem Reaches.limit_pos {offset : Int} (h : Reaches limit offset) : 0 < limit := by
  obtain ⟨hlow, hhigh⟩ := h
  omega

/-- A window has no more cells than there are remainders, so no two of its offsets share one. -/
theorem Reaches.eq_of_modEq {first second : Int} (hfirst : Reaches limit first)
    (hsecond : Reaches limit second) (h : first ≡ second [ZMOD limit]) : first = second := by
  obtain ⟨hlow, hhigh⟩ := hfirst
  obtain ⟨hlow', hhigh'⟩ := hsecond
  have hclose : |second - first| < limit := by
    rw [abs_lt]
    omega
  have hzero := Int.eq_zero_of_abs_lt_dvd h.dvd hclose
  omega

theorem Reaches.fold_eq {offset address : Int} (hreach : Reaches limit offset)
    (h : offset ≡ address [ZMOD limit]) : fold limit address = offset := by
  have hfold := reaches_fold hreach.limit_pos address
  exact hfold.eq_of_modEq hreach ((fold_modEq limit address).trans h.symm)

theorem Reaches.emod_eq {offset : Int} (h : Reaches limit offset) (hle : limit ≤ size) :
    offset % size = if offset < 0 then offset + size else offset := by
  obtain ⟨hlow, hhigh⟩ := h
  split
  · rw [← Int.add_emod_right]
    exact Int.emod_eq_of_lt (by omega) (by omega)
  · exact Int.emod_eq_of_lt (by omega) (by omega)

section

variable (hpos : 0 < limit) (hle : limit ≤ size) (hsize : size < 2 ^ 63)
include hpos hle hsize

theorem offset_eq_fold (address : Int64) :
    (Window.offset address limit size : Int) = fold limit address.toInt % size := by
  have hword : (Int64.ofNat limit).toInt = limit := Int64.toInt_ofNat_of_lt (by omega)
  have hnonneg := Int.emod_nonneg address.toInt (b := limit) (by omega)
  have hlt := Int.emod_lt_of_pos address.toInt (b := limit) (by omega)
  rw [(reaches_fold hpos address.toInt).emod_eq hle, Window.offset, hword, fold]
  -- Only the bounds of the remainder matter from here on.
  generalize address.toInt % limit = rest at *
  split <;> split <;> split <;> omega

theorem offset_lt_size (address : Int64) : Window.offset address limit size < size := by
  have hlt := Int.emod_lt_of_pos (fold limit address.toInt) (b := size) (by omega)
  rw [← offset_eq_fold hpos hle hsize] at hlt
  omega

theorem offset_congr {address other : Int64} (h : other.toInt ≡ address.toInt [ZMOD limit]) :
    Window.offset other limit size = Window.offset address limit size := by
  have hother := offset_eq_fold hpos hle hsize other
  rw [fold_congr h, ← offset_eq_fold hpos hle hsize address] at hother
  exact Int.ofNat_inj.mp hother

theorem reaches_offset (address : Int64) :
    Reaches limit (Window.offset address limit size) ∨
      Reaches limit (Window.offset address limit size - size) := by
  have hreach := reaches_fold hpos address.toInt
  have hoffset := offset_eq_fold hpos hle hsize address
  rw [hreach.emod_eq hle] at hoffset
  split at hoffset
  · right
    rwa [hoffset, Int.add_sub_cancel]
  · left
    rwa [hoffset]

end

theorem offset_modEq_address (hpos : 0 < limit) (hle : limit ≤ size) (hsize : size < 2 ^ 63)
    (hdvd : limit ∣ size) (address : Int64) :
    (Window.offset address limit size : Int) ≡ address.toInt [ZMOD limit] := by
  have hring : fold limit address.toInt % size ≡ fold limit address.toInt [ZMOD size] :=
    Int.mod_modEq _ _
  rw [← offset_eq_fold hpos hle hsize] at hring
  exact (hring.of_dvd (Int.natCast_dvd_natCast.mpr hdvd)).trans (fold_modEq limit address.toInt)

/-- Whatever reading of an offset in the ring lies in the window, the offset is the one found. -/
theorem offset_eq_of_reaches (hle : limit ≤ size) (hsize : size < 2 ^ 63) (hdvd : limit ∣ size)
    {address : Int64} {offset : Nat} {signed : Int} (hoffset : offset < size)
    (h : (offset : Int) ≡ address.toInt [ZMOD limit]) (hsigned : signed ≡ offset [ZMOD size])
    (hreach : Reaches limit signed) : Window.offset address limit size = offset := by
  have hwindow := hsigned.of_dvd (Int.natCast_dvd_natCast.mpr hdvd)
  have hfound := offset_eq_fold hreach.limit_pos hle hsize address
  rw [hreach.fold_eq (hwindow.trans h), hsigned.eq, Int.emod_eq_of_lt (by omega) (by omega)]
    at hfound
  exact Int.ofNat_inj.mp hfound

/-- In a ring that is cut into whole windows, an address comes to the only offset in the ring that
is congruent to it and lies in the window, read forward or backward. So all addresses of one
remainder come to one offset, and an offset that was found once comes to itself. The windows that
cut the ring are the divisors of its size, from one cell up to the whole ring. -/
theorem offset_unique_in_window (hsize : size < 2 ^ 63) (hlimit : limit ∈ size.divisors)
    (address : Int64) :
    (∀ offset : Nat, Window.offset address limit size = offset ↔
      offset < size ∧ (offset : Int) ≡ address.toInt [ZMOD limit] ∧
        (Reaches limit offset ∨ Reaches limit (offset - size))) ∧
    Window.offset address limit size < size ∧
    (∀ other : Int64, other.toInt ≡ address.toInt [ZMOD limit] →
      Window.offset other limit size = Window.offset address limit size) ∧
    Window.offset (.ofNat (Window.offset address limit size)) limit size =
      Window.offset address limit size := by
  have hdvd := Nat.dvd_of_mem_divisors hlimit
  have hpos := Nat.pos_of_mem_divisors hlimit
  have hle := Nat.divisor_le hlimit
  have hlt := offset_lt_size hpos hle hsize address
  have hmod := offset_modEq_address hpos hle hsize hdvd address
  refine ⟨fun offset => ⟨?_, ?_⟩, hlt, fun other => offset_congr hpos hle hsize, ?_⟩
  · rintro rfl
    exact ⟨hlt, hmod, reaches_offset hpos hle hsize address⟩
  · rintro ⟨hoffset, h, hforward | hbackward⟩
    · exact offset_eq_of_reaches hle hsize hdvd hoffset h rfl hforward
    · exact offset_eq_of_reaches hle hsize hdvd hoffset h (Int.sub_modulus_modEq_iff.mpr rfl)
        hbackward
  · apply offset_congr hpos hle hsize
    rwa [Int64.toInt_ofNat_of_lt (Nat.lt_trans hlt hsize)]

/-- The greatest word lies past the middle of its window, so it comes to 193 cells backward. -/
theorem offset_unique_in_window_greatestWord :
    8000 < 2 ^ 63 ∧ 4000 ∈ Nat.divisors 8000 ∧
    Window.offset Int64.maxValue 4000 8000 = 7807 ∧
    (∀ offset : Nat, offset < 8000 → (offset : Int) ≡ Int64.maxValue.toInt [ZMOD 4000] →
      Reaches 4000 offset ∨ Reaches 4000 (offset - 8000) → offset = 7807) ∧
    Window.offset (.ofNat 7807) 4000 8000 = 7807 := by
  have hsize : 8000 < 2 ^ 63 := by decide
  have hlimit : 4000 ∈ Nat.divisors 8000 := Nat.mem_divisors.mpr ⟨⟨2, rfl⟩, by decide⟩
  obtain ⟨honly, -, -, hagain⟩ := offset_unique_in_window hsize hlimit Int64.maxValue
  have hfound : Window.offset Int64.maxValue 4000 8000 = 7807 :=
    (honly 7807).mpr ⟨by decide, by decide, .inr (by decide)⟩
  rw [hfound] at honly hagain
  exact ⟨hsize, hlimit, hfound, fun offset hlt hmod hreach =>
    ((honly offset).mpr ⟨hlt, hmod, hreach⟩).symm, hagain⟩

end CoreWar.Window
