import CoreWar.Proofs.Loading
import Mathlib.Order.Interval.Finset.Nat

namespace CoreWar

namespace Draws

/-- So many words below `limit` stand in the stream from `position` on. -/
def Serves (draws : Draws) (limit : Nat) : (count position : Nat) → Prop
  | 0, _ => True
  | count + 1, position =>
    ∃ found, position ≤ found ∧ (draws found).toNat < limit ∧ draws.Serves limit count (found + 1)

theorem Serves.of_le {draws : Draws} {limit count position earlier : Nat}
    (h : draws.Serves limit count position) (hle : earlier ≤ position) :
    draws.Serves limit count earlier := by
  cases count with
  | zero => trivial
  | succ count =>
    obtain ⟨found, hfound, hlt, hrest⟩ := h
    exact ⟨found, Nat.le_trans hle hfound, hlt, hrest⟩

theorem exists_firstBelow_eq {draws : Draws} {limit position found : Nat} (hle : position ≤ found)
    (h : (draws found).toNat < limit) :
    ∃ first, first ≤ found ∧ (draws first).toNat < limit ∧
      draws.firstBelow limit position = some ((draws first).toNat, first + 1) := by
  induction hd : found - position generalizing position with
  | zero =>
    obtain rfl : position = found := by omega
    refine ⟨position, Nat.le_refl _, h, ?_⟩
    rw [firstBelow, if_pos h]
  | succ distance ih =>
    rw [firstBelow]
    by_cases hp : (draws position).toNat < limit
    · exact ⟨position, hle, hp, if_pos hp⟩
    · rw [if_neg hp]
      exact ih (by omega) (by omega)

theorem uniform_le {draws : Draws} {bound position value rest : Nat}
    (h : draws.uniform bound position = some (value, rest)) : value ≤ bound := by
  rw [uniform] at h
  split at h
  · next hb =>
    have hlt := (draws position).toNat_lt
    simp only [Option.some.injEq, Prod.mk.injEq] at h
    rw [hb, ← h.1, maxWord, UInt64.size]
    omega
  · obtain ⟨⟨word, after⟩, _, he⟩ := Option.map_eq_some_iff.mp h
    simp only [Prod.mk.injEq] at he
    rw [← he.1]
    exact Nat.lt_succ_iff.mp (Nat.mod_lt _ (Nat.succ_pos bound))

theorem Serves.uniform {draws : Draws} {bound count position : Nat}
    (h : draws.Serves (acceptLimit (bound + 1)) (count + 1) position) :
    ∃ value rest, draws.uniform bound position = some (value, rest) ∧
      draws.Serves (acceptLimit (bound + 1)) count rest := by
  obtain ⟨found, hle, hlt, hrest⟩ := h
  rw [Draws.uniform]
  split
  · exact ⟨_, _, rfl, hrest.of_le (by omega)⟩
  · obtain ⟨first, hfirst, _, hsearch⟩ := exists_firstBelow_eq hle hlt
    rw [hsearch]
    exact ⟨_, _, rfl, hrest.of_le (by omega)⟩

end Draws

/-- Each offset is a draw and a gap further on, so the last one is within `count` of them. -/
theorem randomOffsets_eq_ok {draws : Draws} {gap slack count offset position : Nat}
    {offsets : List Nat}
    (h : randomOffsets draws gap slack count offset position = .ok offsets) :
    offsets.length = count ∧
      (offset :: offsets).Pairwise (fun before after => before + gap ≤ after) ∧
      ∀ placed ∈ offsets, placed ≤ offset + count * (gap + slack) := by
  induction count generalizing offset position offsets with
  | zero =>
    cases h
    simp
  | succ count ih =>
    rw [randomOffsets] at h
    cases hu : draws.uniform slack position with
    | none => simp [hu] at h
    | some drawn =>
      obtain ⟨extra, rest⟩ := drawn
      have hextra := Draws.uniform_le hu
      simp only [hu, map_eq_ok_iff] at h
      obtain ⟨more, hmore, rfl⟩ := h
      obtain ⟨hlength, hpairs, hbound⟩ := ih hmore
      have hafter := (List.pairwise_cons.mp hpairs).1
      refine ⟨by rw [List.length_cons, hlength], ?_, ?_⟩
      · rw [List.pairwise_cons]
        refine ⟨?_, hpairs⟩
        intro after hm
        obtain rfl | hm := List.mem_cons.mp hm
        · omega
        · have hgap := hafter after hm
          omega
      · intro placed hm
        rw [Nat.succ_mul]
        obtain rfl | hm := List.mem_cons.mp hm
        · omega
        · have hle := hbound placed hm
          omega

theorem Draws.Serves.randomOffsets {draws : Draws} {slack count position : Nat}
    (h : draws.Serves (acceptLimit (slack + 1)) count position) (gap offset : Nat) :
    ∃ offsets, randomOffsets draws gap slack count offset position = .ok offsets := by
  induction count generalizing offset position with
  | zero => exact ⟨[], rfl⟩
  | succ count ih =>
    obtain ⟨extra, rest, hu, hrest⟩ := h.uniform
    obtain ⟨more, hmore⟩ := ih hrest (offset + gap + extra)
    refine ⟨(offset + gap + extra) :: more, ?_⟩
    simp only [CoreWar.randomOffsets, hu, map_eq_ok_iff]
    exact ⟨more, hmore, rfl⟩

namespace Settings

/-- The largest number that is drawn for the distance between two warriors, beside the gap. -/
def slack (settings : Settings) : Nat :=
  (settings.coreSize - settings.warriors * settings.gap) / (settings.warriors - 1)

/-- The stream serves all draws that are made to place the warriors. -/
def DrawsEnd (settings : Settings) (draws : Draws) : Prop :=
  settings.separation = .random → settings.warriors * settings.gap ≤ settings.coreSize →
    draws.Serves (Draws.acceptLimit (settings.slack + 1)) (settings.warriors - 1) 0

structure Spread (settings : Settings) (offsets : List Nat) : Prop where
  length_eq : offsets.length = settings.warriors
  head_eq : offsets[0]? = some 0
  pairwise : offsets.Pairwise fun before after => before + settings.gap ≤ after
  le : ∀ offset ∈ offsets, offset + settings.gap ≤ settings.coreSize

theorem Valid.gap_pos {settings : Settings} (h : settings.Valid) : 0 < settings.gap := by
  have hminimum := h.minimumSeparation_pos
  unfold gap
  cases hs : settings.separation with
  | fixed gap => exact Nat.lt_of_lt_of_le hminimum (h.separation gap hs)
  | random => exact hminimum

theorem Valid.warriors_mul_gap {settings : Settings} (h : settings.Valid) :
    settings.warriors * settings.gap = (settings.warriors - 1) * settings.gap + settings.gap := by
  rw [← Nat.succ_mul, Nat.succ_eq_add_one, Nat.sub_add_cancel h.warriors_pos]

theorem slack_mul_le (settings : Settings) :
    (settings.warriors - 1) * settings.slack ≤
      settings.coreSize - settings.warriors * settings.gap :=
  Nat.mul_div_le _ _

theorem spread_fixed {settings : Settings} (h : settings.Valid)
    (hroom : settings.warriors * settings.gap ≤ settings.coreSize) :
    settings.Spread ((List.range settings.warriors).map (· * settings.gap)) := by
  have hpos := h.warriors_pos
  have hnext : ∀ first second, first < second →
      first * settings.gap + settings.gap ≤ second * settings.gap := by
    intro first second hlt
    rw [← Nat.succ_mul]
    exact Nat.mul_le_mul_right _ hlt
  refine ⟨by simp, by simp [hpos], ?_, ?_⟩
  · rw [List.pairwise_map]
    exact List.pairwise_lt_range.imp (hnext _ _)
  · intro offset hm
    obtain ⟨number, hn, rfl⟩ := List.mem_map.mp hm
    exact Nat.le_trans (hnext number _ (List.mem_range.mp hn)) hroom

theorem spread_random {settings : Settings} (h : settings.Valid)
    (hroom : settings.warriors * settings.gap ≤ settings.coreSize) {draws : Draws}
    {offsets : List Nat}
    (hdrawn : randomOffsets draws settings.gap settings.slack (settings.warriors - 1) 0 0 =
      .ok offsets) :
    settings.Spread (0 :: offsets) := by
  have hpos := h.warriors_pos
  have hslack := settings.slack_mul_le
  obtain ⟨hlength, hpairs, hbound⟩ := randomOffsets_eq_ok hdrawn
  have hgaps := h.warriors_mul_gap
  refine ⟨by rw [List.length_cons, hlength]; omega, rfl, hpairs, ?_⟩
  intro offset hm
  obtain rfl | hm := List.mem_cons.mp hm
  · omega
  · have hle := hbound offset hm
    rw [Nat.mul_add] at hle
    omega

theorem placements_of_lt {settings : Settings} (draws : Draws)
    (h : settings.coreSize < settings.warriors * settings.gap) :
    placements settings draws =
      .error (.coreTooSmall settings.coreSize settings.warriors settings.gap) := if_pos h

theorem placements_fixed {settings : Settings} (draws : Draws) {gap : Nat}
    (hroom : settings.warriors * settings.gap ≤ settings.coreSize)
    (hs : settings.separation = .fixed gap) :
    placements settings draws = .ok ((List.range settings.warriors).map (· * settings.gap)) := by
  obtain rfl : settings.gap = gap := by rw [Settings.gap, hs]
  simp only [placements, if_neg (Nat.not_lt.mpr hroom), hs]

theorem placements_random {settings : Settings} (draws : Draws)
    (hroom : settings.warriors * settings.gap ≤ settings.coreSize)
    (hs : settings.separation = .random) :
    placements settings draws =
      (randomOffsets draws settings.gap settings.slack (settings.warriors - 1) 0 0).map
        (0 :: ·) := by
  simp only [placements, if_neg (Nat.not_lt.mpr hroom), hs, slack]

theorem spread_of_placements {settings : Settings} (h : settings.Valid) {draws : Draws}
    {offsets : List Nat} (hp : placements settings draws = .ok offsets) :
    settings.Spread offsets := by
  by_cases hroom : settings.coreSize < settings.warriors * settings.gap
  · rw [placements_of_lt draws hroom] at hp
    cases hp
  · rw [Nat.not_lt] at hroom
    cases hs : settings.separation with
    | fixed gap =>
      rw [placements_fixed draws hroom hs] at hp
      cases hp
      exact spread_fixed h hroom
    | random =>
      rw [placements_random draws hroom hs, map_eq_ok_iff] at hp
      obtain ⟨more, hmore, rfl⟩ := hp
      exact spread_random h hroom hmore

theorem DrawsEnd.placements {settings : Settings} {draws : Draws} (h : settings.DrawsEnd draws)
    (hroom : settings.warriors * settings.gap ≤ settings.coreSize) :
    ∃ offsets, placements settings draws = .ok offsets := by
  cases hs : settings.separation with
  | fixed gap => exact ⟨_, placements_fixed draws hroom hs⟩
  | random =>
    obtain ⟨more, hmore⟩ := (h hs hroom).randomOffsets settings.gap 0
    refine ⟨0 :: more, ?_⟩
    rw [placements_random draws hroom hs, map_eq_ok_iff]
    exact ⟨more, hmore, rfl⟩

theorem DrawsEnd.placements_eq_error_iff {settings : Settings} {draws : Draws}
    (h : settings.DrawsEnd draws) (error : BattleError) :
    CoreWar.placements settings draws = .error error ↔
      settings.coreSize < settings.warriors * settings.gap ∧
        error = .coreTooSmall settings.coreSize settings.warriors settings.gap := by
  by_cases hroom : settings.coreSize < settings.warriors * settings.gap
  · rw [placements_of_lt draws hroom, Except.error.injEq, eq_comm]
    exact (and_iff_right hroom).symm
  · obtain ⟨offsets, hok⟩ := h.placements (Nat.not_lt.mp hroom)
    simp [hok, hroom]

theorem placements_eq_of_undrawn {settings : Settings}
    (h : settings.separation ≠ .random ∨ settings.warriors ≤ 1) (first second : Draws) :
    CoreWar.placements settings first = CoreWar.placements settings second := by
  by_cases hroom : settings.coreSize < settings.warriors * settings.gap
  · rw [placements_of_lt first hroom, placements_of_lt second hroom]
  · rw [Nat.not_lt] at hroom
    cases hs : settings.separation with
    | fixed gap => rw [placements_fixed first hroom hs, placements_fixed second hroom hs]
    | random =>
      have hlone : settings.warriors - 1 = 0 := by
        have hle := h.resolve_left (fun hne => hne hs)
        omega
      rw [placements_random first hroom hs, placements_random second hroom hs, hlone, randomOffsets,
        randomOffsets]

end Settings

namespace Battle

variable {settings : Settings} {first second : Draws}

theorem load_eq_of_placements_eq (h : placements settings first = placements settings second)
    (programs : List Program) : load settings programs first = load settings programs second := by
  simp only [load, h]

/-- Draws that come to an end decide where programs are loaded, not whether they are. -/
theorem load_eq_error_of_drawsEnd (hfirst : settings.DrawsEnd first)
    (hsecond : settings.DrawsEnd second) {programs : List Program} {error : BattleError}
    (h : load settings programs first = .error error) :
    load settings programs second = .error error := by
  rw [load, bind_eq_error_iff] at h ⊢
  obtain h | ⟨_, hvalid, h⟩ := h
  · exact .inl h
  refine .inr ⟨_, hvalid, ?_⟩
  rw [bind_eq_error_iff] at h ⊢
  obtain h | ⟨_, hprograms, h⟩ := h
  · exact .inl h
  refine .inr ⟨_, hprograms, ?_⟩
  rw [bind_eq_error_iff] at h ⊢
  obtain h | ⟨_, _, h⟩ := h
  · exact .inl ((hsecond.placements_eq_error_iff error).mpr
      ((hfirst.placements_eq_error_iff error).mp h))
  · cases h

end Battle

def Program.span (program : Program) (offset : Nat) : Finset Nat :=
  Finset.Ico offset (offset + program.length)

theorem checkLengths_eq_ok {settings : Settings} {alone : Bool} {id : Nat} {programs : List Program}
    (h : checkLengths settings alone id programs = .ok ()) (ha : alone = false) :
    ∀ program ∈ programs, program.length ≤ settings.gap := by
  induction programs generalizing id with
  | nil => simp
  | cons first programs ih =>
    rw [checkLengths, refuse_eq_ok_iff, refuse_eq_ok_iff, ha] at h
    obtain ⟨_, hgap, hrest⟩ := h
    intro program hm
    obtain rfl | hm := List.mem_cons.mp hm
    · simpa using hgap
    · exact ih (ha ▸ hrest) program hm

theorem length_le_gap_of_checkPrograms {settings : Settings} {programs : List Program}
    (h : checkPrograms settings programs = .ok ()) (hmany : 2 ≤ programs.length) :
    ∀ program ∈ programs, program.length ≤ settings.gap := by
  rw [checkPrograms, refuse_eq_ok_iff] at h
  exact checkLengths_eq_ok h.2 (decide_eq_false (by omega))

namespace Settings.Spread

variable {settings : Settings} {offsets : List Nat} {programs : List Program}

theorem le_of_mem_zip (h : settings.Spread offsets)
    (hfit : ∀ program ∈ programs, program.length ≤ settings.gap) :
    ∀ entry ∈ programs.zip offsets, entry.2 + entry.1.length ≤ settings.coreSize := by
  rintro ⟨program, offset⟩ hm
  obtain ⟨hp, ho⟩ := List.of_mem_zip hm
  have hle := h.le offset ho
  have hlength := hfit program hp
  dsimp only
  omega

theorem pairwise_disjoint (h : settings.Spread offsets)
    (hfit : ∀ program ∈ programs, program.length ≤ settings.gap) :
    (programs.zip offsets).Pairwise fun first second =>
      Disjoint (first.1.span first.2) (second.1.span second.2) := by
  rw [List.pairwise_iff_getElem]
  intro i j hi hj hlt
  rw [List.length_zip] at hi hj
  have hgap := List.pairwise_iff_getElem.mp h.pairwise i j (by omega) (by omega) hlt
  have hlength := hfit programs[i] (List.getElem_mem _)
  rw [List.getElem_zip, List.getElem_zip, Finset.disjoint_left]
  intro cell hfirst hsecond
  rw [Program.span, Finset.mem_Ico] at hfirst hsecond
  dsimp only at hfirst hsecond
  omega

end Settings.Spread

def unsignedSum? (m n : Nat) : Option Nat := if m + n ≤ Draws.maxWord then some (m + n) else none

def unsignedProduct? (m n : Nat) : Option Nat := if m * n ≤ Draws.maxWord then some (m * n) else none

def Draws.uniform? (draws : Draws) (bound position : Nat) : Option (Option (Nat × Nat)) := do
  let range ← unsignedSum? bound 1
  return (draws.firstBelow (acceptLimit range) position).map fun (word, position) =>
    (word % range, position)

def randomOffsets? (draws : Draws) (gap slack : Nat) :
    (count offset position : Nat) → Option (Except BattleError (List Nat))
  | 0, _, _ => some (.ok [])
  | count + 1, offset, position => do
    match ← draws.uniform? slack position with
    | none => return .error (.drawsRejected position)
    | some (extra, position) =>
      let least ← unsignedSum? offset gap
      let next ← unsignedSum? least extra
      let more ← randomOffsets? draws gap slack count next position
      return more.map (next :: ·)

/-- Placement that gives up at the first number beyond an unsigned word. Only the product of all
gaps may be one: then the core is too small. -/
def placements? (settings : Settings) (draws : Draws) : Option (Except BattleError (List Nat)) :=
  let count := settings.warriors
  let refusal := .error (.coreTooSmall settings.coreSize count settings.gap)
  match unsignedProduct? count settings.gap with
  | none => some refusal
  | some needed =>
    if settings.coreSize < needed then
      some refusal
    else
      match settings.separation with
      | .fixed gap => do
        let offsets ← (List.range count).mapM (unsignedProduct? · gap)
        return .ok offsets
      | .random =>
        if count ≤ 1 then
          some (.ok [0])
        else do
          let slack := (settings.coreSize - needed) / (count - 1)
          let more ← randomOffsets? draws settings.gap slack (count - 1) 0 0
          return more.map (0 :: ·)

theorem unsignedSum?_eq {m n : Nat} (h : m + n ≤ Draws.maxWord) : unsignedSum? m n = some (m + n) :=
  if_pos h

theorem unsignedProduct?_eq {m n : Nat} (h : m * n ≤ Draws.maxWord) :
    unsignedProduct? m n = some (m * n) := if_pos h

theorem Draws.uniform?_eq (draws : Draws) {bound : Nat} (h : bound < maxWord) (position : Nat) :
    draws.uniform? bound position = some (draws.uniform bound position) := by
  rw [uniform?, unsignedSum?_eq h, uniform, if_neg (Nat.ne_of_lt h)]
  rfl

theorem randomOffsets?_eq (draws : Draws) {gap slack : Nat} (hs : slack < Draws.maxWord)
    {count offset : Nat} (h : offset + count * (gap + slack) ≤ Draws.maxWord) (position : Nat) :
    randomOffsets? draws gap slack count offset position =
      some (randomOffsets draws gap slack count offset position) := by
  induction count generalizing offset position with
  | zero => rfl
  | succ count ih =>
    rw [Nat.succ_mul] at h
    rw [randomOffsets?, randomOffsets, draws.uniform?_eq hs]
    cases hu : draws.uniform slack position with
    | none => rfl
    | some drawn =>
      obtain ⟨extra, rest⟩ := drawn
      have hextra := Draws.uniform_le hu
      simp only [Option.bind_eq_bind, Option.bind_some]
      rw [unsignedSum?_eq (by omega), Option.bind_some, unsignedSum?_eq (by omega),
        Option.bind_some, ih (by omega)]
      rfl

theorem mapM_unsignedProduct?_eq {numbers : List Nat} {gap : Nat}
    (h : ∀ number ∈ numbers, number * gap ≤ Draws.maxWord) :
    numbers.mapM (unsignedProduct? · gap) = some (numbers.map (· * gap)) := by
  induction numbers with
  | nil => rfl
  | cons number numbers ih =>
    rw [List.forall_mem_cons] at h
    rw [List.mapM_cons, unsignedProduct?_eq h.1, ih h.2]
    rfl

theorem placements?_of_lt {settings : Settings} (draws : Draws)
    (h : settings.coreSize < settings.warriors * settings.gap) :
    placements? settings draws =
      some (.error (.coreTooSmall settings.coreSize settings.warriors settings.gap)) := by
  rw [placements?]
  by_cases hproduct : settings.warriors * settings.gap ≤ Draws.maxWord
  · simp only [unsignedProduct?_eq hproduct, if_pos h]
  · simp only [unsignedProduct?, if_neg hproduct]

theorem placements?_eq {settings : Settings} (h : settings.Valid)
    (hsize : settings.coreSize ≤ Draws.maxWord) (draws : Draws) :
    placements? settings draws = some (placements settings draws) := by
  by_cases hroom : settings.coreSize < settings.warriors * settings.gap
  · rw [placements?_of_lt draws hroom, Settings.placements_of_lt draws hroom]
  · rw [Nat.not_lt] at hroom
    have hproduct := unsignedProduct?_eq (Nat.le_trans hroom hsize)
    cases hs : settings.separation with
    | fixed gap =>
      obtain rfl : settings.gap = gap := by rw [Settings.gap, hs]
      have hoffsets : ∀ number ∈ List.range settings.warriors,
          number * settings.gap ≤ Draws.maxWord := by
        intro number hn
        have hlt := Nat.mul_le_mul_right settings.gap (Nat.le_of_lt (List.mem_range.mp hn))
        omega
      simp only [placements?, hproduct, if_neg (Nat.not_lt.mpr hroom), hs,
        mapM_unsignedProduct?_eq hoffsets, Settings.placements_fixed draws hroom hs]
      rfl
    | random =>
      have hslack := settings.slack_mul_le
      have hgaps := h.warriors_mul_gap
      simp only [placements?, hproduct, if_neg (Nat.not_lt.mpr hroom), hs,
        Settings.placements_random draws hroom hs]
      by_cases hlone : settings.warriors ≤ 1
      · obtain hone : settings.warriors = 1 := Nat.le_antisymm hlone h.warriors_pos
        rw [if_pos hlone, hone]
        rfl
      · have hword : settings.slack < Draws.maxWord := by
          have hle := Nat.le_mul_of_pos_left settings.slack (show 0 < settings.warriors - 1 by omega)
          have hpos := h.gap_pos
          omega
        have hbound : 0 + (settings.warriors - 1) * (settings.gap + settings.slack) ≤
            Draws.maxWord := by
          rw [Nat.mul_add]
          omega
        rw [if_neg hlone]
        change (randomOffsets? draws settings.gap settings.slack (settings.warriors - 1) 0 0).bind
          _ = _
        rw [randomOffsets?_eq draws hword hbound]
        rfl

/-- Wherever placement succeeds, warriors stand in their order from address 0 on with a gap after
each, the last one included, so that several programs that were accepted take up cells of their own
and none wraps around. Placement fails exactly if so many gaps do not fit into the core, and its
arithmetic stays within unsigned words. -/
theorem placements_spread {settings : Settings} {draws : Draws}
    (hvalid : settings.validate = .ok ()) (hsize : settings.coreSize ≤ Draws.maxWord)
    (hdraws : settings.DrawsEnd draws) :
    (∀ offsets, placements settings draws = .ok offsets →
      offsets.length = settings.warriors ∧ offsets[0]? = some 0 ∧
      (∀ i before after, offsets[i]? = some before → offsets[i + 1]? = some after →
        before + settings.gap ≤ after) ∧
      (∀ last, offsets.getLast? = some last → last + settings.gap ≤ settings.coreSize) ∧
      ∀ programs, checkPrograms settings programs = .ok () → 2 ≤ programs.length →
        ((programs.zip offsets).Pairwise fun first second =>
          Disjoint (first.1.span first.2) (second.1.span second.2)) ∧
        ∀ entry ∈ programs.zip offsets, entry.2 + entry.1.length ≤ settings.coreSize) ∧
    placements? settings draws = some (placements settings draws) ∧
    ∀ error, placements settings draws = .error error ↔
      settings.coreSize < settings.warriors * settings.gap ∧
        error = .coreTooSmall settings.coreSize settings.warriors settings.gap := by
  rw [Settings.validate_eq_ok_iff] at hvalid
  refine ⟨?_, placements?_eq hvalid hsize draws, hdraws.placements_eq_error_iff⟩
  intro offsets hplaced
  have hspread := Settings.spread_of_placements hvalid hplaced
  refine ⟨hspread.length_eq, hspread.head_eq, ?_, ?_, ?_⟩
  · intro i before after hbefore hafter
    obtain ⟨hi, rfl⟩ := List.getElem?_eq_some_iff.mp hbefore
    obtain ⟨hj, rfl⟩ := List.getElem?_eq_some_iff.mp hafter
    exact List.pairwise_iff_getElem.mp hspread.pairwise i (i + 1) hi hj (Nat.lt_succ_self i)
  · intro last hlast
    exact hspread.le last (List.mem_of_getLast? hlast)
  · intro programs hprograms hmany
    have hfit := length_le_gap_of_checkPrograms hprograms hmany
    exact ⟨hspread.pairwise_disjoint hfit, hspread.le_of_mem_zip hfit⟩

def Settings.melee : Settings where
  coreSize := 20
  cyclesBeforeTie := 20
  initial := .empty
  instructionLimit := 4
  maxTasks := 3
  minimumSeparation := 4
  readDistance := 10
  writeDistance := 4
  separation := .random
  warriors := 3

def Draws.hesitant : Draws := fun position => if position = 0 then 0xFFFFFFFFFFFFFFFF else 3

theorem placements_spread_melee :
    Settings.melee.validate = .ok () ∧ Settings.melee.coreSize ≤ Draws.maxWord ∧
    Settings.melee.DrawsEnd .hesitant ∧ placements .melee .hesitant = .ok [0, 7, 14] ∧
    checkPrograms .melee [.imp, .splitter, .stumbler] = .ok () ∧
    (([Program.imp, .splitter, .stumbler].zip [0, 7, 14]).Pairwise fun first second =>
      Disjoint (first.1.span first.2) (second.1.span second.2)) ∧
    placements? .melee .hesitant = some (placements .melee .hesitant) := by
  have hdraws : Settings.melee.DrawsEnd .hesitant := by
    intro _ _
    exact ⟨1, by decide, by decide, 2, by decide, by decide, trivial⟩
  have hfirst : Draws.hesitant.uniform 4 0 = some (3, 2) := by
    rw [Draws.uniform, if_neg (by decide), Draws.firstBelow, if_neg (by decide), Draws.firstBelow,
      if_pos (by decide)]
    rfl
  have hsecond : Draws.hesitant.uniform 4 2 = some (3, 3) := by
    rw [Draws.uniform, if_neg (by decide), Draws.firstBelow, if_pos (by decide)]
    rfl
  have hplaced : placements .melee .hesitant = .ok [0, 7, 14] := by
    rw [Settings.placements_random _ (by decide) rfl]
    change (randomOffsets .hesitant 4 4 2 0 0).map (0 :: ·) = _
    simp only [randomOffsets, hfirst, hsecond]
    rfl
  obtain ⟨hspread, hguarded, _⟩ := @placements_spread .melee .hesitant rfl (by decide) hdraws
  exact ⟨rfl, by decide, hdraws, hplaced, rfl,
    ((hspread _ hplaced).2.2.2.2 [.imp, .splitter, .stumbler] rfl (by decide)).1, hguarded⟩

end CoreWar
