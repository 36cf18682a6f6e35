import CoreWar.Calendar
import Mathlib.Algebra.BigOperators.Intervals
import Mathlib.Algebra.Order.BigOperators.Group.Finset
import Mathlib.Tactic.IntervalCases

namespace CoreWar

def IsLeapYear (year : Nat) : Prop := 4 ∣ year ∧ (100 ∣ year → 400 ∣ year)
  deriving Decidable

def yearLength (year : Nat) : Nat := if IsLeapYear year then 366 else 365

def monthLength (year month : Nat) : Nat :=
  match month with
  | 2 => if IsLeapYear year then 29 else 28
  | 4 | 6 | 9 | 11 => 30
  | _ => 31

theorem monthLength_pos (year month : Nat) : 1 ≤ monthLength year month := by
  unfold monthLength
  repeat' split
  all_goals decide

def daysBeforeMonth (year month : Nat) : Nat :=
  ∑ earlier ∈ Finset.Ico 1 month, monthLength year earlier

def daysBeforeYear (year : Nat) : Nat := ∑ earlier ∈ Finset.Ico 1970 year, yearLength earlier

/-- How many days after 1 January 1970 a day lies. -/
def daysUntil (year month day : Nat) : Nat :=
  daysBeforeYear year + (daysBeforeMonth year month + (day - 1))

structure CalendarDay where
  year : Nat
  month : Nat
  day : Nat
  month_pos : 1 ≤ month
  month_le : month ≤ 12
  day_pos : 1 ≤ day
  day_le : day ≤ monthLength year month

namespace CalendarDay

def next (today : CalendarDay) : CalendarDay :=
  if h : today.day < monthLength today.year today.month then
    { today with
      day := today.day + 1
      day_pos := Nat.le_add_left 1 _
      day_le := h }
  else if hm : today.month < 12 then
    { today with
      month := today.month + 1
      day := 1
      month_pos := Nat.le_add_left 1 _
      month_le := hm
      day_pos := Nat.le_refl 1
      day_le := monthLength_pos _ _ }
  else
    { year := today.year + 1
      month := 1
      day := 1
      month_pos := Nat.le_refl 1
      month_le := by decide
      day_pos := Nat.le_refl 1
      day_le := monthLength_pos _ _ }

def afterEpoch : Nat → CalendarDay
  | 0 => ⟨1970, 1, 1, by decide, by decide, by decide, by decide⟩
  | days + 1 => (afterEpoch days).next

def count (today : CalendarDay) : Nat := daysUntil today.year today.month today.day

end CalendarDay

theorem daysBeforeMonth_succ (year : Nat) {month : Nat} (h : 1 ≤ month) :
    daysBeforeMonth year (month + 1) = daysBeforeMonth year month + monthLength year month :=
  Finset.sum_Ico_succ_top h _

theorem daysBeforeYear_succ {year : Nat} (h : 1970 ≤ year) :
    daysBeforeYear (year + 1) = daysBeforeYear year + yearLength year :=
  Finset.sum_Ico_succ_top h _

/-- The days from 1 March to the first day of a month, which is counted from March. -/
def monthStart (month : Nat) : Nat := (153 * month + 2) / 5

theorem monthStart_succ (year : Nat) {month : Nat} (h : month < 10) :
    monthStart (month + 1) = monthStart month + monthLength year (month + 3) := by
  interval_cases month <;> rfl

theorem daysBeforeMonth_of_march (year : Nat) {month : Nat} (h : month ≤ 10) :
    daysBeforeMonth year (month + 3) + 306 = monthStart month + yearLength year := by
  induction month with
  | zero =>
    by_cases hleap : IsLeapYear year <;>
      simp [daysBeforeMonth, Finset.sum_Ico_succ_top, monthLength, monthStart, yearLength, hleap]
  | succ month ih =>
    have hdays : daysBeforeMonth year (month + 3 + 1) =
        daysBeforeMonth year (month + 3) + monthLength year (month + 3) :=
      daysBeforeMonth_succ year (Nat.le_add_left 1 (month + 2))
    have hstart := monthStart_succ year h
    have hearlier := ih (Nat.le_of_succ_le h)
    rw [Nat.add_right_comm month 1 3]
    omega

theorem daysBeforeMonth_end (year : Nat) : daysBeforeMonth year 13 = yearLength year := by
  have hlast : daysBeforeMonth year 13 + 306 = 306 + yearLength year :=
    daysBeforeMonth_of_march year (Nat.le_refl 10)
  omega

theorem yearLength_eq_february (year : Nat) :
    monthStart 11 + monthLength year 2 = yearLength year := by
  by_cases hleap : IsLeapYear year <;> simp [monthStart, monthLength, yearLength, hleap]

/-- A number is a sum of the lengths of whole periods and a part of the next one in one way. -/
theorem sum_Ico_add_unique {length : Nat → Nat} {first i j r s : Nat} (hi : first ≤ i)
    (hj : first ≤ j) (hr : r < length i) (hs : s < length j)
    (h : ∑ k ∈ Finset.Ico first i, length k + r = ∑ k ∈ Finset.Ico first j, length k + s) :
    i = j ∧ r = s := by
  have hpast : ∀ {m n : Nat}, first ≤ m → m < n →
      ∑ k ∈ Finset.Ico first m, length k + length m ≤ ∑ k ∈ Finset.Ico first n, length k := by
    intro m n hm hlt
    rw [← Finset.sum_Ico_succ_top hm]
    exact Finset.sum_le_sum_of_subset (Finset.Ico_subset_Ico_right hlt)
  obtain hlt | rfl | hlt := Nat.lt_trichotomy i j
  · have hle := hpast hi hlt
    omega
  · exact ⟨rfl, Nat.add_left_cancel h⟩
  · have hle := hpast hj hlt
    omega

namespace CalendarDay

variable {today : CalendarDay}

theorem daysBeforeMonth_add_lt (today : CalendarDay) :
    daysBeforeMonth today.year today.month + (today.day - 1) < yearLength today.year := by
  have hmonth : daysBeforeMonth today.year (today.month + 1) ≤ daysBeforeMonth today.year 13 :=
    Finset.sum_le_sum_of_subset (Finset.Ico_subset_Ico_right (Nat.succ_le_succ today.month_le))
  rw [daysBeforeMonth_succ today.year today.month_pos, daysBeforeMonth_end] at hmonth
  have hpos := today.day_pos
  have hle := today.day_le
  omega

theorem eq_of_count_eq {other : CalendarDay} (ht : 1970 ≤ today.year) (ho : 1970 ≤ other.year)
    (h : today.count = other.count) : today = other := by
  have hlt := today.daysBeforeMonth_add_lt
  have hlt' := other.daysBeforeMonth_add_lt
  obtain ⟨year, month, day, hmonth, _, hday, hday'⟩ := today
  obtain ⟨year', month', day', hmonth', _, hpos', hle'⟩ := other
  obtain ⟨hyear, hrest⟩ := sum_Ico_add_unique ht ho hlt hlt' h
  dsimp only at *
  subst hyear
  obtain ⟨rfl, hsame⟩ := sum_Ico_add_unique hmonth hmonth' (by omega) (by omega) hrest
  obtain rfl : day = day' := by omega
  rfl

theorem count_next (h : 1970 ≤ today.year) :
    today.next.count = today.count + 1 ∧ 1970 ≤ today.next.year := by
  have hpos := today.day_pos
  have hle := today.day_le
  have hmonth := daysBeforeMonth_succ today.year today.month_pos
  unfold next
  split
  · refine ⟨?_, h⟩
    simp only [count, daysUntil]
    omega
  · next hlast =>
    have hday : today.day = monthLength today.year today.month := by omega
    split
    · refine ⟨?_, h⟩
      simp only [count, daysUntil]
      omega
    · -- The last day of December is followed by the first day of a year.
      have hdecember : today.month = 12 := Nat.le_antisymm today.month_le (by omega)
      have hyear := daysBeforeYear_succ h
      have hfirst : daysBeforeMonth (today.year + 1) 1 = 0 := rfl
      rw [hdecember] at hday
      rw [hdecember, daysBeforeMonth_end] at hmonth
      refine ⟨?_, Nat.le_succ_of_le h⟩
      simp only [count, daysUntil, hdecember]
      omega

theorem count_afterEpoch (days : Nat) :
    (afterEpoch days).count = days ∧ 1970 ≤ (afterEpoch days).year := by
  induction days with
  | zero => exact ⟨rfl, Nat.le_refl _⟩
  | succ days ih =>
    obtain ⟨hcount, hyear⟩ := count_next ih.2
    exact ⟨by rw [afterEpoch, hcount, ih.1], hyear⟩

theorem afterEpoch_eq {days : Nat} (h : 1970 ≤ today.year) (hcount : today.count = days) :
    afterEpoch days = today := by
  obtain ⟨hdays, hyear⟩ := count_afterEpoch days
  exact eq_of_count_eq hyear h (hdays.trans hcount.symm)

end CalendarDay

def marchStart (year : Nat) : Nat := 365 * year + year / 4 - year / 100 + year / 400

theorem yearLength_add (year : Nat) :
    yearLength year + (if 100 ∣ year then 1 else 0) =
      365 + (if 4 ∣ year then 1 else 0) + if 400 ∣ year then 1 else 0 := by
  have hcentury : 100 ∣ year → 4 ∣ year := Nat.dvd_trans (by decide)
  have hera : 400 ∣ year → 100 ∣ year := Nat.dvd_trans (by decide)
  unfold yearLength IsLeapYear
  by_cases h4 : 4 ∣ year <;> by_cases h100 : 100 ∣ year <;> by_cases h400 : 400 ∣ year <;> simp_all

theorem marchStart_succ (year : Nat) :
    marchStart (year + 1) = marchStart year + yearLength (year + 1) := by
  have hlength := yearLength_add (year + 1)
  have hone : (if 100 ∣ year + 1 then 1 else 0) ≤ 1 := by split <;> decide
  unfold marchStart
  rw [Nat.succ_div, Nat.succ_div, Nat.succ_div]
  omega

theorem marchStart_mono : Monotone marchStart := by
  apply monotone_nat_of_le_succ
  intro year
  rw [marchStart_succ]
  exact Nat.le_add_right _ _

theorem daysBeforeYear_add_epoch {year : Nat} (h : 1969 ≤ year) :
    daysBeforeYear (year + 1) + Date.epoch = marchStart year + 306 := by
  induction year, h using Nat.le_induction with
  | base => rfl
  | succ year h ih =>
    have hnext : daysBeforeYear (year + 1 + 1) =
        daysBeforeYear (year + 1) + yearLength (year + 1) :=
      daysBeforeYear_succ (Nat.succ_le_succ h)
    have hmarch := marchStart_succ year
    omega

theorem daysUntil_of_march {year month day : Nat} (hyear : 1970 ≤ year) (hm : month ≤ 10) :
    daysUntil year (month + 3) day + Date.epoch =
      marchStart year + (monthStart month + (day - 1)) := by
  obtain ⟨before, rfl⟩ : ∃ before, year = before + 1 := ⟨year - 1, by omega⟩
  have hmonths := daysBeforeMonth_of_march (before + 1) hm
  have hyears := daysBeforeYear_add_epoch (Nat.le_of_succ_le_succ hyear)
  have hmarch := marchStart_succ before
  rw [daysUntil]
  omega

theorem isLeapYear_add_eras (year eras : Nat) :
    IsLeapYear (year + 400 * eras) ↔ IsLeapYear year := by
  have hdvd : ∀ n, n ∣ 400 → (n ∣ year + 400 * eras ↔ n ∣ year) :=
    fun n hn => Nat.dvd_add_left (Nat.dvd_mul_right_of_dvd hn eras)
  rw [IsLeapYear, hdvd 4 (by decide), hdvd 100 (by decide), hdvd 400 (by decide), IsLeapYear]

theorem marchStart_add_eras (year eras : Nat) :
    marchStart (year + 400 * eras) = marchStart year + Date.daysPerEra * eras := by
  unfold marchStart Date.daysPerEra
  omega

theorem yearLength_add_eras (year eras : Nat) :
    yearLength (year + 400 * eras) = yearLength year := by
  simp only [yearLength, isLeapYear_add_eras]

theorem monthOfYear_spec {day : Nat} (h : day < 366) :
    Date.monthOfYear day < 12 ∧ monthStart (Date.monthOfYear day) ≤ day ∧
      day < monthStart (Date.monthOfYear day + 1) := by
  unfold Date.monthOfYear monthStart
  omega

theorem yearLength_le (year : Nat) : yearLength year ≤ 366 := by
  unfold yearLength
  split <;> decide

/-- A day of an era by its century, group of four years, year and day of the year, all counted from
0. The last year of a group has a leap day, except that of the last group of the first three
centuries. -/
theorem yearOfEra_eq {century group year day : Nat} (hc : century ≤ 3) (hg : group ≤ 24)
    (hy : year ≤ 3)
    (hd : day < 365 ∨ day = 365 ∧ year = 3 ∧ (group < 24 ∨ century = 3)) :
    Date.yearOfEra (36524 * century + 1461 * group + 365 * year + day) =
      100 * century + 4 * group + year := by
  generalize he : 36524 * century + 1461 * group + 365 * year + day = eraDay
  have hgroups : eraDay / 1460 =
      25 * century + group + (24 * century + group + 365 * year + day) / 1460 := by omega
  have hcenturies : eraDay / 36524 = century + eraDay / 146096 := by
    by_cases hlast : 1461 * group + 365 * year + day < 36524
    · have hwhole : eraDay / 36524 = century := by omega
      omega
    · have hend : eraDay = 146096 := by omega
      omega
  unfold Date.yearOfEra
  omega

theorem exists_eraDay {day : Nat} (h : day < Date.daysPerEra) :
    ∃ century group year rest,
      day = 36524 * century + 1461 * group + 365 * year + rest ∧
      century ≤ 3 ∧ group ≤ 24 ∧ year ≤ 3 ∧
      (rest < 365 ∨ rest = 365 ∧ year = 3 ∧ (group < 24 ∨ century = 3)) := by
  unfold Date.daysPerEra at h
  obtain ⟨century, hc⟩ : ∃ century, century = min (day / 36524) 3 := ⟨_, rfl⟩
  obtain ⟨group, hg⟩ : ∃ group, group = (day - 36524 * century) / 1461 := ⟨_, rfl⟩
  obtain ⟨year, hy⟩ : ∃ year, year = min ((day - 36524 * century - 1461 * group) / 365) 3 :=
    ⟨_, rfl⟩
  refine ⟨century, group, year, day - 36524 * century - 1461 * group - 365 * year, ?_⟩
  refine ⟨?_, ?_, ?_, ?_, ?_⟩
  all_goals omega

theorem yearOfEra_spec {day : Nat} (h : day < Date.daysPerEra) :
    Date.yearOfEra day < 400 ∧
      day = marchStart (Date.yearOfEra day) + Date.dayOfYear day (Date.yearOfEra day) ∧
      Date.dayOfYear day (Date.yearOfEra day) < yearLength (Date.yearOfEra day + 1) := by
  obtain ⟨century, group, year, rest, rfl, hc, hg, hy, hd⟩ := exists_eraDay h
  rw [yearOfEra_eq hc hg hy hd]
  have hstart : marchStart (100 * century + 4 * group + year) =
      36524 * century + 1461 * group + 365 * year := by
    unfold marchStart
    omega
  have hday : Date.dayOfYear (36524 * century + 1461 * group + 365 * year + rest)
      (100 * century + 4 * group + year) = rest := by
    unfold Date.dayOfYear
    omega
  refine ⟨by omega, by rw [hstart, hday], ?_⟩
  rw [hday]
  by_cases hl : IsLeapYear (100 * century + 4 * group + year + 1)
  · rw [yearLength, if_pos hl]
    omega
  · rw [yearLength, if_neg hl]
    unfold IsLeapYear at hl
    omega

def CalendarDay.date (today : CalendarDay) : Date :=
  ⟨UInt32.ofNat today.year, today.month, today.day⟩

namespace Date

def ofMarch (year month day : Nat) : Date :=
  if month < 10 then ⟨UInt32.ofNat year, month + 3, day + 1⟩
  else ⟨UInt32.ofNat (year + 1), month - 9, day + 1⟩

theorem ofInt_natCast (n : Nat) : UInt32.ofInt n = UInt32.ofNat n := by
  change UInt32.ofNat ((n : Int) % (2 ^ 32 : Nat)).toNat = _
  rw [← Int.natCast_emod, Int.toNat_natCast]
  exact UInt32.ofNat_mod_size

theorem ofDays_eq_ofMarch {days era day year yearDay month : Nat}
    (hera : (days + epoch) / daysPerEra = era) (hday : (days + epoch) % daysPerEra = day)
    (hyear : yearOfEra day = year) (hyearDay : dayOfYear day year = yearDay)
    (hmonth : monthOfYear yearDay = month) (hlt : month < 12) :
    ofDays days = ofMarch (year + 400 * era) month (yearDay - monthStart month) := by
  have hera' : ((days : Int) + epoch) / daysPerEra = era := by
    rw [← hera, Int.natCast_ediv, Int.natCast_add]
  have hday' : (((days : Int) + epoch) % daysPerEra).toNat = day := by
    rw [← hday, ← Int.natCast_add, ← Int.natCast_emod, Int.toNat_natCast]
  simp only [ofDays, hera', hday', hyear, hyearDay, hmonth]
  by_cases hspring : month < 10
  · have hsum : (year : Int) + era * 400 = (year + 400 * era : Nat) := by omega
    rw [ofMarch, if_pos hspring, if_pos hspring, if_neg (by omega), hsum, ofInt_natCast]
    rfl
  · have hsum : (year : Int) + era * 400 + 1 = (year + 400 * era + 1 : Nat) := by omega
    rw [ofMarch, if_neg hspring, if_neg hspring, if_pos (by omega), hsum, ofInt_natCast]
    rfl

theorem exists_ofMarch_eq_of_lt {year month day : Nat} (hm : month < 10)
    (hday : monthStart month + day < monthStart (month + 1)) (hyear : 1970 ≤ year) :
    ∃ today : CalendarDay, 1970 ≤ today.year ∧
      today.count + epoch = marchStart year + (monthStart month + day) ∧
      ofMarch year month day = today.date := by
  have hmonth := monthStart_succ year hm
  exact ⟨⟨year, month + 3, day + 1, by omega, by omega, by omega, by omega⟩, hyear,
    daysUntil_of_march hyear (Nat.le_of_lt hm), if_pos hm⟩

theorem exists_ofMarch_eq_of_ge {year month day : Nat} (hm : 10 ≤ month) (hlt : month < 12)
    (hday : monthStart month + day < monthStart (month + 1))
    (hlength : monthStart month + day < yearLength (year + 1)) (hyear : 1969 ≤ year) :
    ∃ today : CalendarDay, 1970 ≤ today.year ∧
      today.count + epoch = marchStart year + (monthStart month + day) ∧
      ofMarch year month day = today.date := by
  have hyears := daysBeforeYear_add_epoch hyear
  have hdays : daysBeforeMonth (year + 1) (month - 9) + 306 = monthStart month ∧
      day + 1 ≤ monthLength (year + 1) (month - 9) := by
    obtain rfl | rfl : month = 10 ∨ month = 11 := by omega
    · exact ⟨rfl, Nat.lt_of_add_lt_add_left hday⟩
    · rw [← yearLength_eq_february] at hlength
      exact ⟨rfl, Nat.lt_of_add_lt_add_left hlength⟩
  refine ⟨⟨year + 1, month - 9, day + 1, by omega, by omega, by omega, hdays.2⟩,
    Nat.succ_le_succ hyear, ?_, if_neg (Nat.not_lt.mpr hm)⟩
  simp only [CalendarDay.count, daysUntil, Nat.add_sub_cancel]
  omega

theorem exists_ofDays_eq (days : Nat) :
    ∃ today : CalendarDay, 1970 ≤ today.year ∧ today.count = days ∧ ofDays days = today.date := by
  obtain ⟨era, hera⟩ : ∃ era, (days + epoch) / daysPerEra = era := ⟨_, rfl⟩
  obtain ⟨day, hday⟩ : ∃ day, (days + epoch) % daysPerEra = day := ⟨_, rfl⟩
  obtain ⟨year, hyear⟩ : ∃ year, yearOfEra day = year := ⟨_, rfl⟩
  obtain ⟨yearDay, hyearDay⟩ : ∃ yearDay, dayOfYear day year = yearDay := ⟨_, rfl⟩
  obtain ⟨month, hmonth⟩ : ∃ month, monthOfYear yearDay = month := ⟨_, rfl⟩
  have hspec := yearOfEra_spec (hday ▸ Nat.mod_lt _ (by decide))
  rw [hyear, hyearDay, ← yearLength_add_eras (year + 1) era, Nat.add_right_comm] at hspec
  obtain ⟨_, hsplit, hlength⟩ := hspec
  have htotal : days + epoch = marchStart (year + 400 * era) + yearDay := by
    have hwhole := Nat.div_add_mod (days + epoch) daysPerEra
    rw [hera, hday] at hwhole
    rw [marchStart_add_eras]
    omega
  have hle := yearLength_le (year + 400 * era + 1)
  obtain ⟨hm, hstart, hend⟩ := monthOfYear_spec (Nat.lt_of_lt_of_le hlength hle)
  rw [hmonth] at hm hstart hend
  obtain ⟨rest, rfl⟩ := Nat.exists_eq_add_of_le hstart
  rw [ofDays_eq_ofMarch hera hday hyear hyearDay hmonth hm, Nat.add_sub_cancel_left]
  have hfound : ∃ today : CalendarDay, 1970 ≤ today.year ∧
      today.count + epoch = marchStart (year + 400 * era) + (monthStart month + rest) ∧
      ofMarch (year + 400 * era) month rest = today.date := by
    have hepoch : epoch = marchStart 1969 + 306 := rfl
    by_cases hspring : month < 10
    · -- In 1969 the count starts after December.
      have hbefore : monthStart (month + 1) ≤ 306 := by
        unfold monthStart
        omega
      exact exists_ofMarch_eq_of_lt hspring hend (marchStart_mono.reflect_lt (by omega))
    · have hbefore : marchStart 1969 = marchStart 1968 + 365 := rfl
      exact exists_ofMarch_eq_of_ge (Nat.not_lt.mp hspring) hm hend hlength
        (marchStart_mono.reflect_lt (show marchStart 1968 < _ by omega))
  obtain ⟨today, hsince, hcount, hdate⟩ := hfound
  exact ⟨today, hsince, by omega, hdate⟩

theorem ofDays_afterEpoch (days : Nat) : ofDays days = (CalendarDay.afterEpoch days).date := by
  obtain ⟨today, hsince, hcount, hdate⟩ := exists_ofDays_eq days
  rw [hdate, CalendarDay.afterEpoch_eq hsince hcount]

def unsignedDifference? (m n : Nat) : Option Nat := if n ≤ m then some (m - n) else none

def yearOfEra? (day : Nat) : Option Nat := do
  let shortened ← unsignedDifference? day (day / 1460)
  let whole ← unsignedDifference? (shortened + day / 36524) (day / 146096)
  return whole / 365

def dayOfYear? (day year : Nat) : Option Nat := do
  let start ← unsignedDifference? (365 * year + year / 4) (year / 100)
  unsignedDifference? day start

/-- The date of a day count, unless a difference on the way to it lies below zero. -/
def ofDays? (days : Int) : Option Date := do
  let shifted := days + epoch
  let day := (shifted % daysPerEra).toNat
  let year ← yearOfEra? day
  let yearDay ← dayOfYear? day year
  let month := monthOfYear yearDay
  let rest ← unsignedDifference? yearDay ((153 * month + 2) / 5)
  let calendarMonth ← if month < 10 then some (month + 3) else unsignedDifference? month 9
  let calendarYear := year + shifted / daysPerEra * 400
  return {
    year := UInt32.ofInt (if calendarMonth ≤ 2 then calendarYear + 1 else calendarYear)
    month := calendarMonth
    day := rest + 1 }

theorem unsignedDifference?_eq {m n : Nat} (h : n ≤ m) :
    unsignedDifference? m n = some (m - n) := if_pos h

theorem yearOfEra?_eq (day : Nat) : yearOfEra? day = some (yearOfEra day) := by
  have hshort : day / 1460 ≤ day := Nat.div_le_self _ _
  have hwhole : day / 146096 ≤ day - day / 1460 + day / 36524 := by omega
  rw [yearOfEra?, unsignedDifference?_eq hshort]
  change (unsignedDifference? _ _).bind _ = _
  rw [unsignedDifference?_eq hwhole]
  rfl

theorem dayOfYear?_eq {day : Nat} (h : day < daysPerEra) :
    dayOfYear? day (yearOfEra day) = some (dayOfYear day (yearOfEra day)) := by
  obtain ⟨hcycle, hsplit, _⟩ := yearOfEra_spec h
  generalize yearOfEra day = year at *
  have hcenturies : year / 100 ≤ 365 * year + year / 4 := by omega
  have hstart : 365 * year + year / 4 - year / 100 ≤ day := by
    have hmarch : 365 * year + year / 4 - year / 100 ≤ marchStart year := Nat.le_add_right _ _
    omega
  rw [dayOfYear?, unsignedDifference?_eq hcenturies]
  exact unsignedDifference?_eq hstart

theorem ofDays?_eq (days : Int) : ofDays? days = some (ofDays days) := by
  obtain ⟨day, hday⟩ : ∃ day, ((days + epoch) % daysPerEra).toNat = day := ⟨_, rfl⟩
  have hera : day < daysPerEra := by
    have hpos : 0 < daysPerEra := by decide
    have hlt := Int.emod_lt_of_pos (days + epoch) (Int.natCast_pos.mpr hpos)
    omega
  have hlength := (yearOfEra_spec hera).2.2
  have hle := yearLength_le (yearOfEra day + 1)
  have hmonth := (monthOfYear_spec (Nat.lt_of_lt_of_le hlength hle)).2.1
  have hrest := unsignedDifference?_eq hmonth
  unfold monthStart at hrest
  simp only [ofDays?, ofDays, hday, yearOfEra?_eq, dayOfYear?_eq hera, hrest, Option.bind_eq_bind,
    Option.bind_some]
  by_cases hspring : monthOfYear (dayOfYear day (yearOfEra day)) < 10
  · rw [if_pos hspring, if_pos hspring]
    rfl
  · rw [if_neg hspring, if_neg hspring, unsignedDifference?_eq (by omega)]
    rfl

theorem toInt_toInt64 {word : UInt64} (h : word.toNat < 2 ^ 63) :
    word.toInt64.toInt = word.toNat := by
  rw [← Int64.toInt_ofNat_of_lt h, ← UInt64.toInt64_ofNat', UInt64.ofNat_toNat]

theorem lt_of_year_lt {days : Nat} (h : (CalendarDay.afterEpoch days).year < UInt32.size) :
    days + 1 < 2 ^ 63 := by
  obtain ⟨hcount, hsince⟩ := CalendarDay.count_afterEpoch days
  have hlt := (CalendarDay.afterEpoch days).daysBeforeMonth_add_lt
  have hyears := daysBeforeYear_add_epoch (Nat.le_of_succ_le hsince)
  rw [daysBeforeYear_succ hsince] at hyears
  have hmono : marchStart (CalendarDay.afterEpoch days).year ≤ marchStart UInt32.size :=
    marchStart_mono (Nat.le_of_lt h)
  have hlast : marchStart UInt32.size + 306 < 2 ^ 63 := by decide
  rw [CalendarDay.count, daysUntil] at hcount
  omega

theorem ofWord_eq {days : UInt64} (h : days.toNat < 2 ^ 63) :
    ofWord days = (CalendarDay.afterEpoch days.toNat).date := by
  rw [ofWord, toInt_toInt64 h, ofDays_afterEpoch]

/-- The date of a day count whose year fits into 32 bits is the day of the Gregorian calendar that
lies so many days after 1 January 1970. Its month and its day are in range, counting its days
gives the count back, the count after it gives the next day, with its year cut to 32 bits, and no
difference on the way lies below zero. -/
theorem ofWord_is_calendarDay {days : UInt64}
    (h : (CalendarDay.afterEpoch days.toNat).year < UInt32.size) :
    ((ofWord days).year.toNat = (CalendarDay.afterEpoch days.toNat).year ∧
      (ofWord days).month = (CalendarDay.afterEpoch days.toNat).month ∧
      (ofWord days).day = (CalendarDay.afterEpoch days.toNat).day) ∧
    (1 ≤ (ofWord days).month ∧ (ofWord days).month ≤ 12) ∧
    (1 ≤ (ofWord days).day ∧
      (ofWord days).day ≤ monthLength (ofWord days).year.toNat (ofWord days).month) ∧
    daysUntil (ofWord days).year.toNat (ofWord days).month (ofWord days).day = days.toNat ∧
    ((ofWord (days + 1)).year.toNat =
        (CalendarDay.afterEpoch days.toNat).next.year % UInt32.size ∧
      (ofWord (days + 1)).month = (CalendarDay.afterEpoch days.toNat).next.month ∧
      (ofWord (days + 1)).day = (CalendarDay.afterEpoch days.toNat).next.day) ∧
    ofDays? days.toInt64.toInt = some (ofWord days) := by
  have hlt := lt_of_year_lt h
  have hnext : (days + 1).toNat = days.toNat + 1 := by
    rw [UInt64.toNat_add, UInt64.toNat_one]
    exact Nat.mod_eq_of_lt (by omega)
  have hyear : (CalendarDay.afterEpoch days.toNat).date.year.toNat =
      (CalendarDay.afterEpoch days.toNat).year := UInt32.toNat_ofNat_of_lt' h
  have hguarded : ofDays? days.toInt64.toInt = some (ofWord days) := ofDays?_eq _
  rw [ofWord_eq (by omega)] at *
  rw [ofWord_eq (show (days + 1).toNat < 2 ^ 63 by omega), hyear, hnext]
  exact ⟨⟨rfl, rfl, rfl⟩, ⟨CalendarDay.month_pos _, CalendarDay.month_le _⟩,
    ⟨CalendarDay.day_pos _, CalendarDay.day_le _⟩, (CalendarDay.count_afterEpoch _).1,
    ⟨UInt32.toNat_ofNat', rfl, rfl⟩, hguarded⟩

end Date

namespace CalendarDay

def last : CalendarDay := ⟨4294967295, 12, 31, by decide, by decide, by decide, by decide⟩

theorem afterEpoch_last : afterEpoch 1568703873081 = last := by
  have hcount : daysUntil 4294967295 (9 + 3) 31 + Date.epoch =
      marchStart 4294967295 + (monthStart 9 + (31 - 1)) :=
    daysUntil_of_march (by decide) (by decide)
  have hmarch : marchStart 4294967295 + (monthStart 9 + (31 - 1)) =
      1568703873081 + Date.epoch := by decide
  have hdays : daysUntil 4294967295 (9 + 3) 31 = 1568703873081 := by
    rw [hmarch] at hcount
    exact Nat.add_right_cancel hcount
  exact afterEpoch_eq (by decide) hdays

end CalendarDay

namespace Date

theorem ofWord_is_calendarDay_last :
    (CalendarDay.afterEpoch (UInt64.toNat 1568703873081)).year < UInt32.size ∧
    ofWord 1568703873081 = ⟨4294967295, 12, 31⟩ ∧
    daysUntil 4294967295 12 31 = 1568703873081 ∧
    (ofWord (1568703873081 + 1)).year.toNat =
      (CalendarDay.afterEpoch (UInt64.toNat 1568703873081)).next.year % UInt32.size := by
  have hlast : CalendarDay.afterEpoch (UInt64.toNat 1568703873081) = .last :=
    CalendarDay.afterEpoch_last
  have hyear : (CalendarDay.afterEpoch (UInt64.toNat 1568703873081)).year < UInt32.size := by
    rw [hlast]
    decide
  have hdate : ofWord 1568703873081 = ⟨4294967295, 12, 31⟩ := by decide
  obtain ⟨_, _, _, hcount, ⟨hnext, _⟩, _⟩ := ofWord_is_calendarDay hyear
  rw [hdate] at hcount
  exact ⟨hyear, hdate, hcount, hnext⟩

/-- The day after the last one has a year that does not fit, and year 0 stands in for it. -/
theorem ofWord_after_last_year :
    (CalendarDay.afterEpoch (UInt64.toNat 1568703873081)).year < UInt32.size ∧
    ofWord (1568703873081 + 1) = ⟨0, 1, 1⟩ ∧
    (CalendarDay.afterEpoch (UInt64.toNat 1568703873081)).next.year = 4294967296 ∧
    (ofWord (1568703873081 + 1)).year.toNat ≠
      (CalendarDay.afterEpoch (UInt64.toNat 1568703873081)).next.year := by
  have hlast : CalendarDay.afterEpoch (UInt64.toNat 1568703873081) = .last :=
    CalendarDay.afterEpoch_last
  have hdate : ofWord (1568703873081 + 1) = ⟨0, 1, 1⟩ := by decide
  have hnext : CalendarDay.last.next.year = 4294967296 := by decide
  rw [hlast, hdate, hnext]
  decide

end Date

end CoreWar
