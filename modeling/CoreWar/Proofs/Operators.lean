import CoreWar.Operator
import Mathlib.Data.Rat.Floor

namespace CoreWar.Operator

/-- The result on integers: the quotient is rounded down, the remainder goes with the quotient
rounded toward zero. -/
def integerResult? (op : Operator) (lhs rhs : Int) : Option Int :=
  match op with
  | add => some (lhs + rhs)
  | sub => some (lhs - rhs)
  | mul => some (lhs * rhs)
  | div => if rhs = 0 then none else some ⌊(lhs / rhs : ℚ)⌋
  | mod => if rhs = 0 then none else some (lhs.tmod rhs)

def TruncatesUp (lhs rhs : Int64) : Prop :=
  lhs % rhs ≠ 0 ∧ (decide (lhs < 0) != decide (rhs < 0)) = true

theorem floor_eq_fdiv (a b : Int) : ⌊(a / b : ℚ)⌋ = a.fdiv b := by
  obtain ⟨n, rfl | rfl⟩ := Int.eq_nat_or_neg b
  · rw [Int.cast_natCast, Rat.floor_intCast_div_natCast]
    exact (Int.fdiv_eq_ediv_of_nonneg a (Int.natCast_nonneg n)).symm
  · -- Both signs change, so the divisor becomes a natural number.
    have hneg : (a / (-(n : Int) : Int) : ℚ) = ((-a : Int) : ℚ) / (n : ℚ) := by
      rw [Int.cast_neg, Int.cast_neg, Int.cast_natCast, div_neg, neg_div]
    rw [hneg, Rat.floor_intCast_div_natCast, ← Int.neg_fdiv_neg, Int.neg_neg]
    exact (Int.fdiv_eq_ediv_of_nonneg _ (Int.natCast_nonneg n)).symm

theorem toInt_ne_zero {word : Int64} (h : word ≠ 0) : word.toInt ≠ 0 := by
  intro he
  exact h (Int64.toInt_inj.mp he)

theorem mod_ne_zero_iff (lhs rhs : Int64) : lhs % rhs ≠ 0 ↔ ¬ rhs.toInt ∣ lhs.toInt := by
  rw [ne_eq, ← Int64.toInt_inj, Int64.toInt_mod, Int64.toInt_zero, Int.dvd_iff_tmod_eq_zero]

theorem truncatesUp_iff (lhs rhs : Int64) :
    TruncatesUp lhs rhs ↔
      ¬ rhs.toInt ∣ lhs.toInt ∧ (lhs.toInt < 0 ↔ 0 ≤ rhs.toInt) := by
  rw [TruncatesUp, mod_ne_zero_iff, bne_iff_ne, ne_eq, decide_eq_decide, Int64.lt_iff_toInt_lt,
    Int64.lt_iff_toInt_lt, Int64.toInt_zero]
  apply and_congr_right'
  omega

theorem fdiv_of_truncatesUp {lhs rhs : Int64} (hr : rhs ≠ 0) (h : TruncatesUp lhs rhs) :
    lhs.toInt.fdiv rhs.toInt = lhs.toInt.tdiv rhs.toInt - 1 := by
  have hne := toInt_ne_zero hr
  obtain ⟨hdvd, hsigns⟩ := (truncatesUp_iff lhs rhs).mp h
  rw [Int.fdiv_eq_tdiv, if_neg hdvd]
  by_cases hl : 0 ≤ lhs.toInt
  · rw [if_pos hl, if_neg (by omega)]
  · rw [if_neg hl, if_pos (by omega), Int.sign_eq_one_of_pos (by omega)]

theorem fdiv_of_not_truncatesUp {lhs rhs : Int64} (h : ¬ TruncatesUp lhs rhs) :
    lhs.toInt.fdiv rhs.toInt = lhs.toInt.tdiv rhs.toInt := by
  rw [truncatesUp_iff, not_and] at h
  rw [Int.fdiv_eq_tdiv]
  by_cases hdvd : rhs.toInt ∣ lhs.toInt
  · rw [if_pos hdvd, Int.sub_zero]
  · have hsigns := h hdvd
    rw [if_neg hdvd]
    by_cases hl : 0 ≤ lhs.toInt
    · rw [if_pos hl, if_pos (by omega), Int.sub_zero]
    · rw [if_neg hl, if_neg (by omega), Int.sign_eq_neg_one_of_neg (by omega)]
      omega

/-- A quotient that is not exact has a divisor other than 1 and -1, so it is at most half as large
as the dividend. -/
theorem two_mul_natAbs_tdiv_le {a b : Int} (hb : b ≠ 0) (h : ¬ b ∣ a) :
    2 * (a.tdiv b).natAbs ≤ a.natAbs := by
  have htwo : 2 ≤ b.natAbs := by
    by_contra hsmall
    exact h (Int.natAbs_dvd_natAbs.mp (by rw [show b.natAbs = 1 by omega]; exact one_dvd _))
  calc 2 * (a.tdiv b).natAbs ≤ b.natAbs * (a.natAbs / b.natAbs) := by
        rw [Int.natAbs_tdiv]
        exact Nat.mul_le_mul_right _ htwo
    _ ≤ a.natAbs := Nat.mul_div_le _ _

theorem toInt_div_of_truncatesUp {lhs rhs : Int64} (hr : rhs ≠ 0) (h : TruncatesUp lhs rhs) :
    (lhs / rhs).toInt = lhs.toInt.tdiv rhs.toInt ∧
      (lhs / rhs - 1).toInt = (lhs / rhs).toInt - 1 := by
  have hhalf := two_mul_natAbs_tdiv_le (toInt_ne_zero hr) ((truncatesUp_iff lhs rhs).mp h).1
  have hge := lhs.le_toInt
  have hlt := lhs.toInt_lt
  have hquotient : (lhs / rhs).toInt = lhs.toInt.tdiv rhs.toInt := by
    rw [Int64.toInt_div]
    exact Int.bmod_eq_of_le (by omega) (by omega)
  refine ⟨hquotient, ?_⟩
  rw [Int64.toInt_sub, hquotient, Int64.toInt_one]
  exact Int.bmod_eq_of_le (by omega) (by omega)

theorem floorDiv_of_truncatesUp {lhs rhs : Int64} (h : TruncatesUp lhs rhs) :
    floorDiv lhs rhs = lhs / rhs - 1 := if_pos h

theorem floorDiv_of_not_truncatesUp {lhs rhs : Int64} (h : ¬ TruncatesUp lhs rhs) :
    floorDiv lhs rhs = lhs / rhs := if_neg h

theorem toInt_floorDiv_of_ne {lhs rhs : Int64} (hr : rhs ≠ 0)
    (h : ¬ (lhs = Int64.minValue ∧ rhs = -1)) :
    (floorDiv lhs rhs).toInt = ⌊(lhs.toInt / rhs.toInt : ℚ)⌋ := by
  rw [floor_eq_fdiv]
  by_cases hup : TruncatesUp lhs rhs
  · obtain ⟨hquotient, hcorrected⟩ := toInt_div_of_truncatesUp hr hup
    rw [floorDiv_of_truncatesUp hup, hcorrected, hquotient, fdiv_of_truncatesUp hr hup]
  · rw [floorDiv_of_not_truncatesUp hup, fdiv_of_not_truncatesUp hup]
    obtain hl | hr := not_and_or.mp h
    · exact Int64.toInt_div_of_ne_left lhs rhs hl
    · exact Int64.toInt_div_of_ne_right lhs rhs hr

theorem floorDiv_least : floorDiv Int64.minValue (-1) = Int64.minValue := by decide

theorem floor_least : ⌊(Int64.minValue.toInt / Int64.toInt (-1) : ℚ)⌋ = -Int64.minValue.toInt := by
  rw [floor_eq_fdiv]
  decide

theorem toInt_floorDiv {lhs rhs : Int64} (hr : rhs ≠ 0) :
    (floorDiv lhs rhs).toInt = ⌊(lhs.toInt / rhs.toInt : ℚ)⌋.bmod (2 ^ 64) := by
  by_cases h : lhs = Int64.minValue ∧ rhs = -1
  · obtain ⟨rfl, rfl⟩ := h
    rw [floorDiv_least, floor_least]
    decide
  · rw [← toInt_floorDiv_of_ne hr h]
    exact (Int64.toInt_bmod _).symm

theorem apply_eq_none_iff (op : Operator) (lhs rhs : Int64) :
    op.apply lhs rhs = none ↔ (op = .div ∨ op = .mod) ∧ rhs = 0 := by
  cases op <;> simp [apply]

/-- An operator has a result on words exactly if it has one on integers, and it is that one, wrapped
around. -/
theorem map_toInt_apply (op : Operator) (lhs rhs : Int64) :
    (op.apply lhs rhs).map Int64.toInt =
      (op.integerResult? lhs.toInt rhs.toInt).map (Int.bmod · (2 ^ 64)) := by
  cases op with
  | add => exact congrArg some (Int64.toInt_add lhs rhs)
  | sub => exact congrArg some (Int64.toInt_sub lhs rhs)
  | mul => exact congrArg some (Int64.toInt_mul lhs rhs)
  | div =>
    by_cases hr : rhs = 0
    · simp [apply, integerResult?, hr]
    · simp only [apply, integerResult?, if_neg hr, if_neg (toInt_ne_zero hr), Option.map_some,
        toInt_floorDiv hr]
  | mod =>
    by_cases hr : rhs = 0
    · simp [apply, integerResult?, hr]
    · simp only [apply, integerResult?, if_neg hr, if_neg (toInt_ne_zero hr), Option.map_some,
        ← Int64.toInt_mod]
      exact congrArg some (Int64.toInt_bmod _).symm

theorem apply_div {lhs rhs : Int64} (hr : rhs ≠ 0) :
    div.apply lhs rhs = some (floorDiv lhs rhs) := if_neg hr

theorem apply_mod {lhs rhs : Int64} (hr : rhs ≠ 0) : mod.apply lhs rhs = some (lhs % rhs) :=
  if_neg hr

theorem mod_bounds {lhs rhs : Int64} (hr : rhs ≠ 0) :
    (lhs % rhs).toInt.natAbs < rhs.toInt.natAbs ∧
      (lhs % rhs = 0 ∨ (lhs % rhs).toInt.sign = lhs.toInt.sign) ∧
      rhs.toInt ∣ lhs.toInt - (lhs % rhs).toInt := by
  have hne := toInt_ne_zero hr
  rw [← Int64.toInt_inj, Int64.toInt_mod, Int64.toInt_zero, Int.natAbs_tmod, Int.sign_tmod]
  refine ⟨Nat.mod_lt _ (Int.natAbs_pos.mpr hne), ?_, ?_⟩
  · by_cases hdvd : rhs.toInt ∣ lhs.toInt
    · exact .inl (Int.tmod_eq_zero_of_dvd hdvd)
    · exact .inr (if_neg hdvd)
  · exact Int.dvd_self_sub_tmod

/-- On all words the operators agree with exact arithmetic, wrapped around to a signed word. The
quotient is the exact one rounded down, except for the least word divided by -1, and no correction
of a quotient leaves the words. The remainder is that of division toward zero. Only a division or
a remainder by zero has no result. -/
theorem apply_agrees_with_exact (lhs rhs : Int64) :
    (∀ op : Operator, (op.apply lhs rhs).map Int64.toInt =
      (op.integerResult? lhs.toInt rhs.toInt).map (Int.bmod · (2 ^ 64))) ∧
    (rhs ≠ 0 →
      (∃ quotient, div.apply lhs rhs = some quotient ∧
        (quotient.toInt = ⌊(lhs.toInt / rhs.toInt : ℚ)⌋ ↔
          ¬ (lhs = Int64.minValue ∧ rhs = -1)) ∧
        (lhs = Int64.minValue → rhs = -1 → quotient = Int64.minValue)) ∧
      (lhs % rhs ≠ 0 → (lhs < 0 ↔ ¬ rhs < 0) →
        (lhs / rhs - 1).toInt = (lhs / rhs).toInt - 1) ∧
      ∃ rest, mod.apply lhs rhs = some rest ∧ rest.toInt = lhs.toInt.tmod rhs.toInt ∧
        rest.toInt.natAbs < rhs.toInt.natAbs ∧
        (rest = 0 ∨ rest.toInt.sign = lhs.toInt.sign) ∧ rhs.toInt ∣ lhs.toInt - rest.toInt) ∧
    ∀ op : Operator, op.apply lhs rhs = none ↔ (op = .div ∨ op = .mod) ∧ rhs = 0 := by
  refine ⟨fun op => op.map_toInt_apply lhs rhs, ?_, fun op => op.apply_eq_none_iff lhs rhs⟩
  intro hr
  refine ⟨⟨floorDiv lhs rhs, apply_div hr, ⟨?_, toInt_floorDiv_of_ne hr⟩, ?_⟩, ?_,
    ⟨lhs % rhs, apply_mod hr, Int64.toInt_mod lhs rhs, mod_bounds hr⟩⟩
  · rintro hexact ⟨rfl, rfl⟩
    rw [floorDiv_least, floor_least] at hexact
    revert hexact
    decide
  · rintro rfl rfl
    exact floorDiv_least
  · intro hrest hsigns
    refine (toInt_div_of_truncatesUp hr ⟨hrest, ?_⟩).2
    rw [bne_iff_ne, ne_eq, decide_eq_decide, not_iff, not_iff_comm]
    exact hsigns.symm

theorem apply_agrees_with_exact_negative :
    (2 : Int64) ≠ 0 ∧ div.apply (-7) 2 = some (-4) ∧ mod.apply (-7) 2 = some (-1) ∧
    (∃ quotient, div.apply (-7) 2 = some quotient ∧
      quotient.toInt = ⌊(Int64.toInt (-7) / Int64.toInt 2 : ℚ)⌋) ∧
    (-7 / 2 - 1 : Int64).toInt = (-7 / 2 : Int64).toInt - 1 := by
  have hr : (2 : Int64) ≠ 0 := by decide
  obtain ⟨⟨quotient, hdiv, hexact, _⟩, hcorrected, _⟩ := (apply_agrees_with_exact (-7) 2).2.1 hr
  exact ⟨hr, by decide, by decide, ⟨quotient, hdiv, hexact.mpr (by decide)⟩,
    hcorrected (by decide) (by decide)⟩

end CoreWar.Operator
