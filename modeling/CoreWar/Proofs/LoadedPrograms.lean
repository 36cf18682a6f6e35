import CoreWar.Proofs.Placement
import Mathlib.Data.Nat.ModEq

namespace CoreWar

namespace Core

theorem advance_advance_one (core : Core) (base offset : Nat) :
    core.advance (core.advance base 1) offset = core.advance base (offset + 1) := by
  rw [advance_advance, Nat.add_comm]

theorem fetch_storeAll {core : Core} {base : Nat} (h : base < core.size) (code : List Instruction)
    (address : Nat) :
    (∃ j, core.advance base j = address ∧
        code[j]? = some ((core.storeAll base code).fetch address)) ∨
      (∀ j, j < code.length → core.advance base j ≠ address) ∧
        (core.storeAll base code).fetch address = core.fetch address := by
  induction code generalizing core base with
  | nil => exact .inr ⟨fun j hj => absurd hj (Nat.not_lt_zero j), rfl⟩
  | cons insn code ih =>
    have hshape := shape_store core base insn
    have hbase : core.advance base 1 < (core.store base insn).size := by
      rw [size_store]
      exact advance_lt (Nat.zero_lt_of_lt h) base 1
    rw [storeAll]
    obtain ⟨j, hj, hcode⟩ | ⟨hnone, hkeep⟩ := ih hbase
    · left
      refine ⟨j + 1, ?_, hcode⟩
      rw [← hj, advance_eq_of_shape_eq hshape, advance_advance_one]
    · rw [hkeep, fetch_store h]
      by_cases he : base = address
      · left
        refine ⟨0, ?_, ?_⟩
        · rw [advance, Nat.add_zero, Nat.mod_eq_of_lt h, he]
        · rw [if_pos he, List.getElem?_cons_zero]
      · right
        refine ⟨?_, if_neg he⟩
        intro j hj
        cases j with
        | zero =>
          rw [advance, Nat.add_zero, Nat.mod_eq_of_lt h]
          exact he
        | succ j =>
          rw [← advance_advance_one, ← advance_eq_of_shape_eq hshape]
          exact hnone j (Nat.lt_of_succ_lt_succ hj)

theorem fetch_ofSettings {settings : Settings} {address : Nat} (h : address < settings.coreSize) :
    (ofSettings settings).fetch address = settings.initial := by
  simp [ofSettings, fetch, h]

theorem wrap_ofNat {core : Core} (hsize : core.size ≤ maxSize) {address : Nat}
    (h : address < core.size) : core.wrap (Int64.ofNat address) = address := by
  unfold maxSize at hsize
  have hword := Int64.toInt_ofNat_of_lt (show address < 2 ^ 63 by omega)
  rw [wrap, wrapAddress, hword, ← Int.natCast_emod, Int.toNat_natCast, Nat.mod_eq_of_lt h]

end Core

/-- Instruction `j` of the program at `i` is `insn`, and it belongs at `address` of a ring of `size`
cells. -/
def Puts (size : Nat) (entries : List (Program × Nat)) (i j address : Nat) (insn : Instruction) :
    Prop :=
  ∃ program offset, entries[i]? = some (program, offset) ∧ program.code[j]? = some insn ∧
    (offset + j) % size = address

namespace Battle

variable {maxTasks id : Nat} {core : Core} {entries : List (Program × Nat)}

/-- A cell holds an instruction that a program puts there, or what it held before if no program
does. -/
theorem fetch_loadWarriors (hsize : core.size ≤ Core.maxSize)
    (h : ∀ entry ∈ entries, entry.2 < core.size) (address : Nat) :
    (∃ i j, Puts core.size entries i j address
        ((loadWarriors maxTasks core id entries).2.2.fetch address)) ∨
      (∀ i j insn, ¬ Puts core.size entries i j address insn) ∧
        (loadWarriors maxTasks core id entries).2.2.fetch address = core.fetch address := by
  induction entries generalizing core id with
  | nil =>
    right
    refine ⟨?_, rfl⟩
    rintro i j insn ⟨program, offset, hi, _⟩
    simp at hi
  | cons entry entries ih =>
    obtain ⟨program, offset⟩ := entry
    rw [List.forall_mem_cons] at h
    have hbase : core.wrap (Int64.ofNat offset) = offset := Core.wrap_ofNat hsize h.1
    have hs := Core.size_eq_of_shape_eq (Core.shape_storeAll core offset program.code)
    simp only [loadWarriors, hbase]
    obtain ⟨i, j, other, start, hi, hcode, hj⟩ | ⟨hnone, hkeep⟩ :=
      @ih (id + 1) (core.storeAll offset program.code) (by rw [hs]; exact hsize)
        (by rw [hs]; exact h.2)
    · rw [hs] at hj
      exact .inl ⟨i + 1, j, other, start, hi, hcode, hj⟩
    · rw [hs] at hnone
      rw [hkeep]
      obtain ⟨j, hj, hcode⟩ | ⟨hfirst, hbefore⟩ := Core.fetch_storeAll h.1 program.code address
      · exact .inl ⟨0, j, program, offset, rfl, hcode, hj⟩
      · right
        refine ⟨?_, hbefore⟩
        rintro i j insn ⟨other, start, hi, hcode, hj⟩
        cases i with
        | zero =>
          cases hi
          exact hfirst j (List.getElem?_eq_some_iff.mp hcode).1 hj
        | succ i => exact hnone i j insn ⟨other, start, hi, hcode, hj⟩

theorem getElem?_loadWarriors_start {i : Nat} {program : Program} {offset : Nat}
    (hi : entries[i]? = some (program, offset)) :
    (loadWarriors maxTasks core id entries).1[i]? =
      some (.start (id + i) maxTasks
        (core.advance (core.wrap (Int64.ofNat offset)) program.start)) := by
  induction entries generalizing core id i with
  | nil => simp at hi
  | cons entry entries ih =>
    have hshape := Core.shape_storeAll core (core.wrap (Int64.ofNat entry.2)) entry.1.code
    rw [loadWarriors]
    cases i with
    | zero =>
      cases hi
      rfl
    | succ i =>
      have hrest := @ih (id + 1) (core.storeAll (core.wrap (Int64.ofNat entry.2)) entry.1.code) i hi
      rw [Core.advance_eq_of_shape_eq hshape, Core.wrap_eq_of_shape_eq hshape, Nat.add_right_comm,
        Nat.add_assoc] at hrest
      exact hrest

theorem getElem?_loadWarriors (hsize : core.size ≤ Core.maxSize)
    (h : ∀ entry ∈ entries, entry.2 < core.size) {i : Nat} {program : Program} {offset : Nat}
    (hi : entries[i]? = some (program, offset)) :
    (loadWarriors maxTasks core id entries).1[i]? =
      some (.start (id + i) maxTasks ((offset + program.start) % core.size)) := by
  rw [getElem?_loadWarriors_start hi, Core.wrap_ofNat hsize (h _ (List.mem_of_getElem? hi)),
    Core.advance]

end Battle

section

variable {settings : Settings} {offsets : List Nat} {programs : List Program}

theorem Settings.Spread.lt_of_mem_zip (hspread : settings.Spread offsets)
    (hvalid : settings.Valid) (programs : List Program) :
    ∀ entry ∈ programs.zip offsets, entry.2 < settings.coreSize := by
  intro entry hm
  have hle := hspread.le entry.2 (List.of_mem_zip hm).2
  have hpos := hvalid.gap_pos
  omega

theorem not_puts_of_lt (hspread : settings.Spread offsets)
    (hfit : ∀ program ∈ programs, program.length ≤ settings.gap) {i i' j j' address : Nat}
    {first second : Instruction} (hlt : i < i')
    (hfirst : Puts settings.coreSize (programs.zip offsets) i j address first) :
    ¬ Puts settings.coreSize (programs.zip offsets) i' j' address second := by
  rintro ⟨late, after, hi', hcode', haddress'⟩
  obtain ⟨early, before, hi, hcode, haddress⟩ := hfirst
  obtain ⟨hin, he⟩ := List.getElem?_eq_some_iff.mp hi
  obtain ⟨hin', he'⟩ := List.getElem?_eq_some_iff.mp hi'
  have hj : j < early.length := (List.getElem?_eq_some_iff.mp hcode).1
  have hj' : j' < late.length := (List.getElem?_eq_some_iff.mp hcode').1
  have hend : before + early.length ≤ settings.coreSize :=
    hspread.le_of_mem_zip hfit _ (List.mem_of_getElem? hi)
  have hend' : after + late.length ≤ settings.coreSize :=
    hspread.le_of_mem_zip hfit _ (List.mem_of_getElem? hi')
  have hapart := List.pairwise_iff_getElem.mp (hspread.pairwise_disjoint hfit) i i' hin hin' hlt
  rw [he, he', Finset.disjoint_left] at hapart
  -- Neither program wraps around, so the cell is in both of their spans.
  rw [Nat.mod_eq_of_lt (by omega)] at haddress haddress'
  refine @hapart address ?_ ?_ <;> rw [Program.span, Finset.mem_Ico] <;> dsimp only <;> omega

theorem index_eq_of_puts (hspread : settings.Spread offsets)
    (hprograms : checkPrograms settings programs = .ok ()) {i i' j j' address : Nat}
    {first second : Instruction}
    (hfirst : Puts settings.coreSize (programs.zip offsets) i j address first)
    (hsecond : Puts settings.coreSize (programs.zip offsets) i' j' address second) : i = i' := by
  by_cases hmany : 2 ≤ programs.length
  · have hfit := length_le_gap_of_checkPrograms hprograms hmany
    obtain hlt | he | hlt := Nat.lt_trichotomy i i'
    · exact absurd hsecond (not_puts_of_lt hspread hfit hlt hfirst)
    · exact he
    · exact absurd hfirst (not_puts_of_lt hspread hfit hlt hsecond)
  · obtain ⟨_, _, hi, _⟩ := hfirst
    obtain ⟨_, _, hi', _⟩ := hsecond
    have hin := (List.getElem?_eq_some_iff.mp hi).1
    have hin' := (List.getElem?_eq_some_iff.mp hi').1
    rw [List.length_zip] at hin hin'
    omega

end

namespace Program

/-- Instructions that fall on one cell of a ring of `size` cells are equal. -/
def FoldsInto (program : Program) (size : Nat) : Prop :=
  ∀ j k first second, program.code[j]? = some first → program.code[k]? = some second →
    j % size = k % size → first = second

theorem foldsInto_of_length_le {program : Program} {size : Nat} (h : program.length ≤ size) :
    program.FoldsInto size := by
  intro j k first second hj hk he
  have hjlt : j < program.length := (List.getElem?_eq_some_iff.mp hj).1
  have hklt : k < program.length := (List.getElem?_eq_some_iff.mp hk).1
  rw [Nat.mod_eq_of_lt (by omega), Nat.mod_eq_of_lt (by omega)] at he
  rw [he, hk] at hj
  exact (Option.some.inj hj).symm

end Program

namespace Battle

/-- All cells that no program puts anything in are initial, and each warrior has one task, where its
program starts. -/
structure Staged (battle : Battle) (programs : List Program) : Prop where
  offsets_length : battle.offsets.length = programs.length
  warriors_length : battle.warriors.length = programs.length
  rest : ∀ address, address < battle.settings.coreSize →
    (∀ i j insn,
      ¬ Puts battle.settings.coreSize (programs.zip battle.offsets) i j address insn) →
    battle.core.fetch address = battle.settings.initial
  warriors : ∀ (i : Nat) (program : Program) (offset : Nat),
    (programs.zip battle.offsets)[i]? = some (program, offset) →
    ∃ warrior : Warrior, battle.warriors[i]? = some warrior ∧ warrior.id = i ∧
      warrior.tasks.toList = [⟨0, (offset + program.start) % battle.settings.coreSize⟩]

/-- Besides, each program stands in the core as it was written, so that each task is about to run
the instruction that its program starts with. -/
structure Holds (battle : Battle) (programs : List Program) : Prop
    extends battle.Staged programs where
  code : ∀ i j address insn,
    Puts battle.settings.coreSize (programs.zip battle.offsets) i j address insn →
    battle.core.fetch address = insn
  entry : ∀ (i : Nat) (program : Program) (offset : Nat),
    (programs.zip battle.offsets)[i]? = some (program, offset) →
    program.code[program.start]? =
      some (battle.core.fetch ((offset + program.start) % battle.settings.coreSize))

theorem Holds.foldsInto {battle : Battle} {programs : List Program} (h : battle.Holds programs)
    {program : Program} (hm : program ∈ programs) :
    program.FoldsInto battle.settings.coreSize := by
  obtain ⟨i, hi, rfl⟩ := List.getElem_of_mem hm
  have hio : i < battle.offsets.length := by rw [h.offsets_length]; exact hi
  have hentry : (programs.zip battle.offsets)[i]? = some (programs[i], battle.offsets[i]) := by
    rw [List.getElem?_zip_eq_some]
    exact ⟨List.getElem?_eq_getElem hi, List.getElem?_eq_getElem hio⟩
  intro j k first second hj hk he
  have hfirst := h.code i j _ first ⟨_, _, hentry, hj, rfl⟩
  have hsecond := h.code i k _ second ⟨_, _, hentry, hk, rfl⟩
  rw [Nat.add_mod, he, ← Nat.add_mod] at hfirst
  rw [← hfirst, hsecond]

section

variable {settings : Settings} {programs : List Program} {draws : Draws} {battle : Battle}
  {notices : List Notice}

theorem staged_of_load (hsize : settings.coreSize ≤ Core.maxSize)
    (hload : load settings programs draws = .ok (battle, notices)) : battle.Staged programs := by
  obtain ⟨hvalid, hprograms, offsets, hplaced, rfl⟩ := load_eq_ok hload
  have hspread := Settings.spread_of_placements hvalid hplaced
  have hoffsets := hspread.lt_of_mem_zip hvalid programs
  have hlength : offsets.length = programs.length :=
    hspread.length_eq.trans (checkPrograms_length hprograms).symm
  have hids := loadWarriors_ids settings.maxTasks (.ofSettings settings) 0 (programs.zip offsets)
  rw [← Core.size_ofSettings settings] at hsize hoffsets
  refine ⟨hlength, ?_, ?_, ?_⟩
  · have hcount := congrArg List.length hids
    rw [List.length_map, List.length_range', List.length_zip, hlength, Nat.min_self] at hcount
    exact hcount
  · intro address hlt hnone
    obtain ⟨i, j, hputs⟩ | ⟨_, hkeep⟩ := fetch_loadWarriors hsize hoffsets address
    · rw [Core.size_ofSettings] at hputs
      exact absurd hputs (hnone i j _)
    · exact hkeep.trans (Core.fetch_ofSettings hlt)
  · intro i program offset hi
    refine ⟨_, getElem?_loadWarriors hsize hoffsets hi, Nat.zero_add i, ?_⟩
    rw [Core.size_ofSettings]
    exact Queue.toList_ofList _

theorem holds_of_load (hsize : settings.coreSize ≤ Core.maxSize)
    (hload : load settings programs draws = .ok (battle, notices))
    (hfold : ∀ program ∈ programs, program.FoldsInto settings.coreSize) :
    battle.Holds programs := by
  have hstaged := staged_of_load hsize hload
  obtain ⟨hvalid, hprograms, offsets, hplaced, rfl⟩ := load_eq_ok hload
  have hspread := Settings.spread_of_placements hvalid hplaced
  have hoffsets := hspread.lt_of_mem_zip hvalid programs
  rw [← Core.size_ofSettings settings] at hsize hoffsets
  have hcode : ∀ i j address insn,
      Puts settings.coreSize (programs.zip offsets) i j address insn →
      (loadWarriors settings.maxTasks (.ofSettings settings) 0
        (programs.zip offsets)).2.2.fetch address = insn := by
    intro i j address insn hputs
    obtain ⟨i', j', hheld⟩ | ⟨hnone, _⟩ := fetch_loadWarriors hsize hoffsets address
    · rw [Core.size_ofSettings] at hheld
      obtain rfl := index_eq_of_puts hspread hprograms hputs hheld
      obtain ⟨program, offset, hi, hinsn, haddress⟩ := hputs
      obtain ⟨_, _, hi', hinsn', haddress'⟩ := hheld
      cases hi.symm.trans hi'
      -- Both instructions are of one program and fall on one cell.
      have hmod : j % settings.coreSize = j' % settings.coreSize :=
        Nat.ModEq.add_left_cancel' offset (haddress.trans haddress'.symm)
      exact (hfold program (List.of_mem_zip (List.mem_of_getElem? hi)).1 j j' _ _ hinsn hinsn'
        hmod).symm
    · rw [Core.size_ofSettings] at hnone
      exact absurd hputs (hnone i j insn)
  refine ⟨hstaged, hcode, ?_⟩
  intro i program offset hi
  have hstart := List.getElem?_eq_getElem program.start_lt
  rw [hstart, hcode i program.start _ _ ⟨program, offset, hi, hstart, rfl⟩]

/-- After loading, all programs stand in the core as they were written exactly if instructions of
one program that fall on one cell are equal. This can only fail for a lone program that is longer
than the core. -/
theorem load_holds_iff (hsize : settings.coreSize ≤ Core.maxSize)
    (hload : load settings programs draws = .ok (battle, notices)) :
    battle.Staged programs ∧
    (battle.Holds programs ↔ ∀ program ∈ programs, program.FoldsInto settings.coreSize) ∧
    (¬ battle.Holds programs →
      ∃ program, programs = [program] ∧ settings.coreSize < program.length) := by
  have hsettings := settings_of_load hload
  refine ⟨staged_of_load hsize hload, ⟨?_, holds_of_load hsize hload⟩, ?_⟩
  · intro h program hm
    rw [← hsettings]
    exact h.foldsInto hm
  · intro hnot
    obtain ⟨hvalid, hprograms, offsets, hplaced, _⟩ := load_eq_ok hload
    have hspread := Settings.spread_of_placements hvalid hplaced
    -- Some program does not fold into the core, so it is too long for it.
    obtain ⟨program, hm, hlong⟩ : ∃ program ∈ programs, settings.coreSize < program.length := by
      by_contra hnone
      apply hnot
      apply holds_of_load hsize hload
      intro program hm
      apply Program.foldsInto_of_length_le
      by_contra hlong
      exact hnone ⟨program, hm, Nat.not_le.mp hlong⟩
    have hlone : ¬ 2 ≤ programs.length := by
      intro hmany
      have hfit := length_le_gap_of_checkPrograms hprograms hmany program hm
      have hroom := hspread.le 0 (List.mem_of_getElem? hspread.head_eq)
      omega
    have hpos := List.length_pos_of_mem hm
    obtain ⟨only, rfl⟩ := List.length_eq_one_iff.mp (show programs.length = 1 by omega)
    obtain rfl := List.mem_singleton.mp hm
    exact ⟨program, rfl, hlong⟩

end

theorem load_holds_iff_duel :
    ∃ battle notices, Settings.duel.coreSize ≤ Core.maxSize ∧
      load .duel [.splitter, .imp] (fun _ => 0) = .ok (battle, notices) ∧
      battle.Holds [.splitter, .imp] := by
  have hload : load .duel [.splitter, .imp] (fun _ => 0) = .ok _ := rfl
  refine ⟨_, _, by decide, hload, (load_holds_iff (by decide) hload).2.1.mpr ?_⟩
  intro program hm
  apply Program.foldsInto_of_length_le
  revert program
  decide

end Battle

def Settings.cramped : Settings where
  coreSize := 2
  cyclesBeforeTie := 5
  initial := .empty
  instructionLimit := 4
  maxTasks := 1
  minimumSeparation := 1
  readDistance := 2
  writeDistance := 2
  separation := .fixed 1
  warriors := 1

def Program.oversized : Program where
  code := [⟨.dat, .f, ⟨.immediate, 1⟩, ⟨.immediate, 1⟩⟩, ⟨.dat, .f, ⟨.immediate, 2⟩, ⟨.immediate, 2⟩⟩,
    ⟨.dat, .f, ⟨.immediate, 3⟩, ⟨.immediate, 3⟩⟩]
  start := 0
  start_lt := by decide

/-- Three instructions are accepted for two cells, and the third one overwrites the first. -/
theorem Battle.load_overwrites_itself :
    ∃ battle notices, load .cramped [.oversized] (fun _ => 0) = .ok (battle, notices) ∧
      battle.core.fetch 0 = ⟨.dat, .f, ⟨.immediate, 3⟩, ⟨.immediate, 3⟩⟩ ∧
      ¬ battle.Holds [.oversized] := by
  have hload : load .cramped [.oversized] (fun _ => 0) = .ok _ := rfl
  refine ⟨_, _, hload, rfl, ?_⟩
  intro h
  have hfirst := h.code 0 0 0 ⟨.dat, .f, ⟨.immediate, 1⟩, ⟨.immediate, 1⟩⟩
    ⟨.oversized, 0, rfl, rfl, rfl⟩
  revert hfirst
  decide

end CoreWar
