import CoreWar.Proofs.Loading

namespace CoreWar

/-- The tasks of a warrior lie in a core of `size` cells, are no more than `maxTasks`, and have
numbers of their own that were given out before. -/
structure Warrior.Sound (size maxTasks : Nat) (warrior : Warrior) : Prop where
  maxTasks_eq : warrior.maxTasks = maxTasks
  length_le : warrior.tasks.toList.length ≤ maxTasks
  address_lt : ∀ task ∈ warrior.tasks.toList, task.address < size
  ids_nodup : (warrior.tasks.toList.map (·.id)).Nodup
  id_lt : ∀ task ∈ warrior.tasks.toList, task.id < warrior.nextTask

namespace Warrior

variable {size maxTasks : Nat}

theorem sound_start (id : Nat) {entry : Nat} (hm : 0 < maxTasks) (he : entry < size) :
    (start id maxTasks entry).Sound size maxTasks := by
  have hl : (start id maxTasks entry).tasks.toList = [⟨0, entry⟩] := Queue.toList_ofList _
  refine ⟨rfl, ?_, ?_, ?_, ?_⟩ <;> rw [hl]
  · exact hm
  · simpa using he
  · simp
  · simp [start]

theorem Sound.requeue {warrior rest : Warrior} {task : Task} (h : warrior.Sound size maxTasks)
    (ht : warrior.take? = some (task, rest)) {next : Option Nat}
    (hn : ∀ address ∈ next, address < size) : (rest.requeue task next).Sound size maxTasks := by
  obtain ⟨tasks, rfl, hl⟩ := take?_eq_some ht
  obtain ⟨hmax, hlength, haddress, hnodup, hid⟩ := h
  rw [hl] at hlength haddress hnodup hid
  simp only [List.length_cons, List.map_cons, List.nodup_cons, List.mem_cons, forall_eq_or_imp] at *
  refine ⟨by rw [requeue_maxTasks]; exact hmax, ?_, ?_, ?_, ?_⟩ <;> rw [toList_requeue]
  · cases next <;> simp <;> omega
  · intro other ho
    obtain ho | ho := List.mem_append.mp ho
    · exact haddress.2 other ho
    · obtain ⟨address, ha, rfl⟩ := Option.map_eq_some_iff.mp (Option.mem_toList.mp ho)
      exact hn address ha
  · cases next with
    | none => simpa using hnodup.2
    | some address =>
      simp only [Option.map_some, Option.toList_some, List.map_append, List.map_cons, List.map_nil]
      rw [List.nodup_append]
      refine ⟨hnodup.2, by simp, ?_⟩
      intro a ha b hb
      rw [List.mem_singleton] at hb
      subst hb
      intro he
      exact hnodup.1 (he ▸ ha)
  · rw [requeue_nextTask]
    intro other ho
    obtain ho | ho := List.mem_append.mp ho
    · exact hid.2 other ho
    · obtain ⟨address, _, rfl⟩ := Option.map_eq_some_iff.mp (Option.mem_toList.mp ho)
      exact hid.1

theorem Sound.spawn {warrior : Warrior} (h : warrior.Sound size maxTasks)
    (hroom : warrior.tasks.size < maxTasks) {address : Nat} (ha : address < size) :
    (warrior.spawn address).Sound size maxTasks := by
  rw [← Queue.length_toList] at hroom
  refine ⟨h.maxTasks_eq, ?_, ?_, ?_, ?_⟩ <;> rw [toList_spawn]
  · rw [List.length_append, List.length_singleton]
    exact hroom
  · intro task ht
    obtain ht | ht := List.mem_append.mp ht
    · exact h.address_lt task ht
    · rw [List.mem_singleton.mp ht]
      exact ha
  · rw [List.map_append, List.nodup_append]
    refine ⟨h.ids_nodup, by simp, ?_⟩
    intro a hm b hb
    obtain ⟨task, ht, rfl⟩ := List.mem_map.mp hm
    have hlt := h.id_lt task ht
    simp only [List.map_cons, List.map_nil, List.mem_singleton] at hb
    omega
  · intro task ht
    obtain ht | ht := List.mem_append.mp ht
    · exact Nat.lt_succ_of_lt (h.id_lt task ht)
    · rw [List.mem_singleton.mp ht]
      exact Nat.lt_succ_self _

theorem Sound.settle {warrior rest : Warrior} {task : Task} (h : warrior.Sound size maxTasks)
    (ht : warrior.take? = some (task, rest)) {update : Update} (hu : update.Within size) :
    (rest.settle task update).2.Sound size maxTasks := by
  have hq := h.requeue ht hu.next_lt
  obtain hs | ⟨address, ha, hroom, hs⟩ := settle_cases rest task update
  · rw [hs]
    exact hq
  · rw [hs]
    rw [← requeue_maxTasks rest task update.next, hq.maxTasks_eq] at hroom
    exact hq.spawn hroom (hu.spawn_lt address ha)

end Warrior

structure Battle.Sound (battle : Battle) : Prop where
  valid : battle.settings.Valid
  coreSize_le : battle.settings.coreSize ≤ Core.maxSize
  shape_eq : battle.core.shape = (Core.ofSettings battle.settings).shape
  warriors : ∀ warrior ∈ battle.warriors,
    warrior.Sound battle.settings.coreSize battle.settings.maxTasks
  ids_lt : (battle.warriors.map (·.id)).Pairwise (· < ·)
  id_lt : ∀ warrior ∈ battle.warriors, warrior.id < battle.settings.warriors

namespace Battle

theorem Sound.core {battle : Battle} (h : battle.Sound) : battle.core.Sound :=
  (Core.sound_ofSettings h.valid h.coreSize_le).of_shape_eq h.shape_eq

theorem Sound.size_eq {battle : Battle} (h : battle.Sound) :
    battle.core.size = battle.settings.coreSize := by
  rw [Core.size_eq_of_shape_eq h.shape_eq, Core.size_ofSettings]

theorem sound_of_load {settings : Settings} {programs : List Program} {draws : Draws}
    {battle : Battle} {notices : List Notice} (hsize : settings.coreSize ≤ Core.maxSize)
    (h : load settings programs draws = .ok (battle, notices)) : battle.Sound := by
  obtain ⟨hvalid, hprograms, offsets, _, rfl⟩ := load_eq_ok h
  have hcore := Core.sound_ofSettings hvalid hsize
  have hids := loadWarriors_ids settings.maxTasks (.ofSettings settings) 0 (programs.zip offsets)
  refine ⟨hvalid, hsize, loadWarriors_shape _ _ _ _, ?_, ?_, ?_⟩
  · intro warrior hw
    obtain ⟨number, entry, hlt, rfl⟩ := exists_start_of_mem_loadWarriors hcore.size_pos hw
    rw [Core.size_ofSettings] at hlt
    exact Warrior.sound_start number hvalid.maxTasks_pos hlt
  · dsimp only
    rw [hids]
    exact List.pairwise_lt_range'
  · intro warrior hw
    have hm : warrior.id ∈ List.range' 0 (programs.zip offsets).length := by
      rw [← hids]
      exact List.mem_map_of_mem hw
    have hlength := checkPrograms_length hprograms
    rw [List.length_zip, List.mem_range'_1] at hm
    dsimp only
    omega

theorem Sound.afterTask {battle : Battle} (h : battle.Sound) {index : Nat}
    {warrior rest : Warrior} {task : Task} (hw : battle.warriors[index]? = some warrior)
    (ht : warrior.take? = some (task, rest)) : (battle.afterTask index task rest).Sound := by
  have hm := List.mem_of_getElem? hw
  have hu := Core.execute_within h.core.size_pos task.address
  rw [h.size_eq] at hu
  have hs := (h.warriors warrior hm).settle ht hu
  have hids := ids_afterTask hw ht
  refine ⟨h.valid, h.coreSize_le, (Core.shape_execute _ _).trans h.shape_eq, ?_, ?_, ?_⟩
  · intro other ho
    obtain ho | rfl := List.mem_or_eq_of_mem_set ho
    · exact h.warriors other ho
    · exact hs
  · rw [hids]
    exact h.ids_lt
  · intro other ho
    have hmem : other.id ∈ battle.warriors.map (·.id) := by
      rw [← hids]
      exact List.mem_map_of_mem ho
    obtain ⟨before, hb, he⟩ := List.mem_map.mp hmem
    rw [← he]
    exact h.id_lt before hb

theorem sound_preserved : Preserved Sound where
  step _ _ h := of_step h h.afterTask
  endCycle battle h := by
    refine ⟨h.valid, h.coreSize_le, h.shape_eq, ?_, ?_, ?_⟩
    · intro warrior hw
      exact h.warriors warrior (List.mem_filter.mp hw).1
    · exact h.ids_lt.sublist (List.filter_sublist.map _)
    · intro warrior hw
      exact h.id_lt warrior (List.mem_filter.mp hw).1
  executeAt battle address h :=
    ⟨h.valid, h.coreSize_le, (Core.shape_execute _ _).trans h.shape_eq, h.warriors, h.ids_lt, h.id_lt⟩
  poke battle address insn h :=
    ⟨h.valid, h.coreSize_le, (Core.shape_store _ _ _).trans h.shape_eq, h.warriors, h.ids_lt, h.id_lt⟩

end Battle

end CoreWar
