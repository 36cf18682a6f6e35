import CoreWar.Proofs.Placement
import Mathlib.Data.FinEnum
import Mathlib.Data.Int.CardIntervalMod

namespace CoreWar.Draws

/-- The words from which a number up to `bound` is drawn. -/
def accepted (bound : Nat) : Finset UInt64 := {word | word.toNat < acceptLimit (bound + 1)}

def wordsFor (bound value : Nat) : Finset UInt64 :=
  {word ∈ accepted bound | word.toNat % (bound + 1) = value}

theorem mem_accepted_iff {bound : Nat} {word : UInt64} :
    word ∈ accepted bound ↔ word.toNat < acceptLimit (bound + 1) := by
  rw [accepted, Finset.mem_filter_univ]

theorem card_filter_below {limit : Nat} (h : limit ≤ UInt64.size) (P : Nat → Prop)
    [DecidablePred P] :
    ({word | word.toNat < limit ∧ P word.toNat} : Finset UInt64).card = limit.count P := by
  rw [Nat.count_eq_card_filter_range]
  have hvalue : ∀ n, n < limit → (UInt64.ofNat n).toNat = n :=
    fun n hn => UInt64.toNat_ofNat_of_lt' (Nat.lt_of_lt_of_le hn h)
  refine Finset.card_nbij' UInt64.toNat UInt64.ofNat ?_ ?_ ?_ ?_
  · intro word hword
    simpa using hword
  · intro n hn
    have hlt : n < limit := by simp_all
    simpa [hvalue n hlt] using hn
  · exact fun word _ => UInt64.ofNat_toNat
  · intro n hn
    exact hvalue n (by simp_all)

theorem acceptLimit_eq (range : Nat) : acceptLimit range = range * (maxWord / range) := by
  have hsplit := Nat.div_add_mod maxWord range
  rw [acceptLimit]
  omega

theorem acceptLimit_le_size (range : Nat) : acceptLimit range ≤ UInt64.size := by
  rw [acceptLimit, maxWord]
  omega

variable {bound : Nat}

theorem range_le_acceptLimit (h : bound < maxWord) : bound + 1 ≤ acceptLimit (bound + 1) := by
  rw [acceptLimit_eq]
  exact Nat.le_mul_of_pos_right _ (Nat.div_pos h (Nat.succ_pos bound))

theorem card_accepted (bound : Nat) : (accepted bound).card = acceptLimit (bound + 1) := by
  have hcard := card_filter_below (acceptLimit_le_size (bound + 1)) (fun _ => True)
  rw [Nat.count_true] at hcard
  rw [← hcard, accepted]
  simp only [and_true]

/-- Every number has its share of the words that are accepted. -/
theorem card_wordsFor {value : Nat} (h : value ≤ bound) :
    (wordsFor bound value).card = acceptLimit (bound + 1) / (bound + 1) := by
  have hmultiple : acceptLimit (bound + 1) % (bound + 1) = 0 := by
    rw [acceptLimit_eq]
    exact Nat.mul_mod_right _ _
  calc (wordsFor bound value).card
      = ({word | word.toNat < acceptLimit (bound + 1) ∧
          word.toNat ≡ value [MOD bound + 1]} : Finset UInt64).card := by
        rw [wordsFor, accepted, Finset.filter_filter]
        simp only [Nat.ModEq, Nat.mod_eq_of_lt (Nat.lt_succ_of_le h)]
    _ = (acceptLimit (bound + 1)).count (· ≡ value [MOD bound + 1]) :=
        card_filter_below (acceptLimit_le_size _) (· ≡ value [MOD bound + 1])
    _ = acceptLimit (bound + 1) / (bound + 1) := by
        rw [Nat.count_modEq_card _ (Nat.succ_pos bound), hmultiple, if_neg (Nat.not_lt_zero _)]
        exact Nat.add_zero _

/-- What is left over above the limit is less than one range, and the limit is at least one. -/
theorem size_le_two_mul_acceptLimit (h : bound < maxWord) :
    UInt64.size ≤ 2 * acceptLimit (bound + 1) := by
  have hrange := range_le_acceptLimit h
  have hrest : maxWord % (bound + 1) < bound + 1 := Nat.mod_lt _ (Nat.succ_pos bound)
  have hsize : UInt64.size = maxWord + 1 := rfl
  rw [acceptLimit] at *
  omega

theorem firstBelow_eq {draws : Draws} {limit position first : Nat} (hle : position ≤ first)
    (hbefore : ∀ earlier, position ≤ earlier → earlier < first → ¬ (draws earlier).toNat < limit)
    (h : (draws first).toNat < limit) :
    draws.firstBelow limit position = some ((draws first).toNat, first + 1) := by
  induction hd : first - position generalizing position with
  | zero =>
    obtain rfl : position = first := by omega
    rw [firstBelow, if_pos h]
  | succ distance ih =>
    rw [firstBelow, if_neg (hbefore position (Nat.le_refl _) (by omega))]
    exact ih (by omega) (fun earlier he => hbefore earlier (by omega)) (by omega)

theorem uniform_eq {draws : Draws} {position first : Nat} (hb : bound ≠ maxWord)
    (hle : position ≤ first)
    (hbefore : ∀ earlier, position ≤ earlier → earlier < first → draws earlier ∉ accepted bound)
    (h : draws first ∈ accepted bound) :
    draws.uniform bound position = some ((draws first).toNat % (bound + 1), first + 1) := by
  simp only [mem_accepted_iff] at hbefore h
  rw [uniform, if_neg hb, firstBelow_eq hle hbefore h]
  rfl

theorem exists_first {draws : Draws} {words : Finset UInt64} {position found : Nat}
    (hle : position ≤ found) (h : draws found ∈ words) :
    ∃ first, position ≤ first ∧ draws first ∈ words ∧
      ∀ earlier, position ≤ earlier → earlier < first → draws earlier ∉ words := by
  have hexists : ∃ first, position ≤ first ∧ draws first ∈ words := ⟨found, hle, h⟩
  refine ⟨Nat.find hexists, (Nat.find_spec hexists).1, (Nat.find_spec hexists).2, ?_⟩
  intro earlier hposition hlt hmem
  exact Nat.find_min hexists hlt ⟨hposition, hmem⟩

/-- A draw is fair: its limit is a positive multiple of the range, so that the same number of
accepted words gives each number, and at least half of all words are accepted. A stream with an
accepted word gives the first one modulo the range, and is used up as far as this word. If all
words are in range, the next word is drawn as it is. -/
theorem uniform_unbiased (h : bound < maxWord) :
    (0 < acceptLimit (bound + 1) ∧ bound + 1 ∣ acceptLimit (bound + 1)) ∧
    (∀ value ≤ bound, (wordsFor bound value).card = acceptLimit (bound + 1) / (bound + 1)) ∧
    UInt64.size ≤ 2 * (accepted bound).card ∧
    (∀ (draws : Draws) (position : Nat),
      (∃ found, position ≤ found ∧ draws found ∈ accepted bound) →
      ∃ first, position ≤ first ∧ draws first ∈ accepted bound ∧
        (∀ earlier, position ≤ earlier → earlier < first → draws earlier ∉ accepted bound) ∧
        draws.uniform bound position = some ((draws first).toNat % (bound + 1), first + 1) ∧
        (draws first).toNat % (bound + 1) ≤ bound) ∧
    ∀ (draws : Draws) (position : Nat),
      draws.uniform maxWord position = some ((draws position).toNat, position + 1) := by
  refine ⟨⟨?_, ?_⟩, fun _ => card_wordsFor, ?_, ?_, fun _ _ => if_pos rfl⟩
  · exact Nat.lt_of_lt_of_le (Nat.succ_pos bound) (range_le_acceptLimit h)
  · rw [acceptLimit_eq]
    exact Nat.dvd_mul_right _ _
  · rw [card_accepted]
    exact size_le_two_mul_acceptLimit h
  · rintro draws position ⟨found, hle, hfound⟩
    obtain ⟨first, hposition, hfirst, hbefore⟩ := exists_first hle hfound
    have hdrawn := uniform_eq (Nat.ne_of_lt h) hposition hbefore hfirst
    exact ⟨first, hposition, hfirst, hbefore, hdrawn, uniform_le hdrawn⟩

/-- The first word of the stream is rejected. -/
theorem uniform_unbiased_hesitant :
    4 < maxWord ∧ hesitant 0 ∉ accepted 4 ∧
    (∃ first, hesitant first ∈ accepted 4 ∧
      hesitant.uniform 4 0 = some ((hesitant first).toNat % 5, first + 1)) ∧
    (wordsFor 4 3).card = (wordsFor 4 0).card := by
  have hbound : 4 < maxWord := by decide
  obtain ⟨_, hshare, _, hdraw, _⟩ := uniform_unbiased hbound
  obtain ⟨first, _, hfirst, _, hdrawn, _⟩ :=
    hdraw hesitant 0 ⟨1, by decide, mem_accepted_iff.mpr (by decide)⟩
  refine ⟨hbound, ?_, ⟨first, hfirst, hdrawn⟩, ?_⟩
  · rw [mem_accepted_iff]
    decide
  · rw [hshare 3 (by decide), hshare 0 (by decide)]

end CoreWar.Draws
