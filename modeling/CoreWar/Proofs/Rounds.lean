import CoreWar.Proofs.Causality

namespace CoreWar

namespace Report

def ran (report : Report) : Task := ⟨report.task, report.pc⟩

def continuation (report : Report) : List Task :=
  (report.update.next.map fun address => ⟨report.task, address⟩).toList

def child (number : Nat) (report : Report) : List Task :=
  if report.dropped then [] else (report.update.spawn.map fun address => ⟨number, address⟩).toList

/-- What the tasks of the reports leave in the queue. New tasks are numbered from `number` on. -/
def queued (number : Nat) : List Report → List Task
  | [] => []
  | report :: reports =>
    report.continuation ++ report.child number ++
      queued (if report.spawns then number + 1 else number) reports

theorem queued_append (number : Nat) (reports more : List Report) :
    queued number (reports ++ more) =
      queued number reports ++ queued (number + reports.countP (·.spawns)) more := by
  induction reports generalizing number with
  | nil => rfl
  | cons report reports ih =>
    rw [List.cons_append, queued, queued, ih, List.countP_cons, List.append_assoc]
    by_cases hs : report.spawns = true
    · simp [hs, Nat.add_assoc, Nat.add_comm 1]
    · simp [hs]

theorem child_of_not_spawns {report : Report} (h : report.spawns = false) (number : Nat) :
    report.child number = [] := by
  rw [spawns, Bool.and_eq_false_iff] at h
  obtain hnone | hdropped := h
  · simp_all [child]
  · simp_all [child]

theorem child_of_spawns {report : Report} {address : Nat} (h : report.spawns = true)
    (ha : report.update.spawn = some address) (number : Nat) :
    report.child number = [⟨number, address⟩] := by
  rw [spawns, Bool.and_eq_true] at h
  simp_all [child]

end Report

namespace Warrior

theorem settle_ran (warrior : Warrior) (task : Task) (update : Update) :
    (warrior.settle task update).1.ran = task := by
  obtain ⟨dropped, hreport⟩ := exists_settle_fst_eq warrior task update
  rw [hreport]
  rfl

theorem settle_update (warrior : Warrior) (task : Task) (update : Update) :
    (warrior.settle task update).1.update = update := by
  obtain ⟨dropped, hreport⟩ := exists_settle_fst_eq warrior task update
  rw [hreport]

theorem settle_continuation (warrior : Warrior) (task : Task) (update : Update) :
    (warrior.settle task update).1.continuation =
      (update.next.map fun address => { task with address }).toList := by
  obtain ⟨dropped, hreport⟩ := exists_settle_fst_eq warrior task update
  rw [hreport]
  rfl

theorem settle_dropped_iff (warrior : Warrior) (task : Task) (update : Update) :
    (warrior.settle task update).1.dropped = true ↔
      update.spawn.isSome ∧ warrior.maxTasks ≤
        warrior.tasks.toList.length + (warrior.settle task update).1.continuation.length := by
  rw [settle_continuation, ← List.length_append, ← toList_requeue, Queue.length_toList]
  unfold settle
  cases update.spawn with
  | none => simp
  | some address =>
    dsimp only
    rw [requeue_maxTasks]
    split
    · next hroom => simpa using hroom
    · next hfull => simpa using hfull

theorem toList_settle (warrior : Warrior) (task : Task) (update : Update) :
    (warrior.settle task update).2.tasks.toList =
      warrior.tasks.toList ++ Report.queued warrior.nextTask [(warrior.settle task update).1] := by
  rw [Report.queued, Report.queued, List.append_nil, settle_continuation, ← List.append_assoc,
    ← toList_requeue]
  obtain ⟨hs, hafter⟩ | ⟨address, ha, hs, hafter⟩ := settle_spawns_cases warrior task update
  · rw [hafter, Report.child_of_not_spawns hs, List.append_nil]
  · rw [← settle_update warrior task update] at ha
    rw [hafter, toList_spawn, requeue_nextTask, Report.child_of_spawns hs ha]

theorem nextTask_settle (warrior : Warrior) (task : Task) (update : Update) :
    (warrior.settle task update).2.nextTask =
      warrior.nextTask + [(warrior.settle task update).1].countP (·.spawns) := by
  obtain ⟨hs, hafter⟩ | ⟨address, _, hs, hafter⟩ := settle_spawns_cases warrior task update
  · simp [hafter, hs]
  · simp [hafter, hs, spawn]

theorem maxTasks_settle (warrior : Warrior) (task : Task) (update : Update) :
    (warrior.settle task update).2.maxTasks = warrior.maxTasks := by
  obtain ⟨_, hafter⟩ | ⟨address, _, _, hafter⟩ := settle_spawns_cases warrior task update
  · rw [hafter, requeue_maxTasks]
  · rw [hafter]
    exact requeue_maxTasks _ _ _

def runTasks (warrior : Warrior) : List (Nat → Update) → List (Except BattleError Report) × Warrior
  | [] => ([], warrior)
  | call :: calls =>
    let (result, warrior) := warrior.runTask call
    let (results, warrior) := warrior.runTasks calls
    (result :: results, warrior)

/-- A round from `start` on after the tasks of `reports` have run and while `waiting` have not. -/
structure Midway (start : Warrior) (reports : List Report) (waiting : List Task)
    (warrior : Warrior) : Prop where
  tasks_eq : warrior.tasks.toList = waiting ++ Report.queued start.nextTask reports
  nextTask_eq : warrior.nextTask = start.nextTask + reports.countP (·.spawns)
  maxTasks_eq : warrior.maxTasks = start.maxTasks

variable {start warrior : Warrior} {task : Task} {waiting : List Task} {past : List Report}

theorem exists_take?_eq (h : warrior.tasks.toList = task :: waiting) :
    ∃ rest, warrior.take? = some (task, rest) ∧ rest.tasks.toList = waiting ∧
      rest.nextTask = warrior.nextTask ∧ rest.maxTasks = warrior.maxTasks := by
  cases ht : warrior.take? with
  | none =>
    rw [(Queue.pop?_eq_none_iff _).mp (Option.map_eq_none_iff.mp ht)] at h
    cases h
  | some taken =>
    obtain ⟨first, rest⟩ := taken
    obtain ⟨tasks, rfl, htasks⟩ := take?_eq_some ht
    rw [h] at htasks
    cases htasks
    exact ⟨_, rfl, rfl, rfl, rfl⟩

theorem Midway.runTask (h : Midway start past (task :: waiting) warrior) (call : Nat → Update) :
    ∃ report, (warrior.runTask call).1 = .ok report ∧ report.ran = task ∧
      report.update = call task.address ∧
      (report.dropped = true ↔ report.update.spawn.isSome ∧
        start.maxTasks ≤ waiting.length + (Report.queued start.nextTask past).length +
          report.continuation.length) ∧
      Midway start (past ++ [report]) waiting (warrior.runTask call).2 := by
  have hqueue := h.tasks_eq
  rw [List.cons_append] at hqueue
  obtain ⟨rest, htake, htasks, hnumber, hlimit⟩ := exists_take?_eq hqueue
  rw [h.nextTask_eq] at hnumber
  rw [h.maxTasks_eq] at hlimit
  have hrun : warrior.runTask call = (.ok (rest.settle task (call task.address)).1,
      (rest.settle task (call task.address)).2) := by
    rw [Warrior.runTask, htake]
  rw [hrun]
  refine ⟨_, rfl, settle_ran _ _ _, settle_update _ _ _, ?_, ?_⟩
  · rw [settle_dropped_iff, settle_update, htasks, hlimit, List.length_append]
  · constructor
    · rw [toList_settle, htasks, hnumber, Report.queued_append, List.append_assoc]
    · rw [nextTask_settle, hnumber, List.countP_append, Nat.add_assoc]
    · rw [maxTasks_settle, hlimit]

/-- A round goes on to its end, one task after another. -/
theorem Midway.runTasks {calls : List (Nat → Update)} (h : Midway start past waiting warrior)
    (hcalls : calls.length = waiting.length) :
    ∃ reports : List Report, (warrior.runTasks calls).1 = reports.map .ok ∧
      reports.map (·.ran) = waiting ∧
      reports.map (·.update) = List.zipWith (fun call task => call task.address) calls waiting ∧
      (∀ before report after, reports = before ++ report :: after →
        (report.dropped = true ↔ report.update.spawn.isSome ∧
          start.maxTasks ≤ after.length + (Report.queued start.nextTask (past ++ before)).length +
            report.continuation.length)) ∧
      Midway start (past ++ reports) [] (warrior.runTasks calls).2 := by
  induction waiting generalizing warrior past calls with
  | nil =>
    obtain rfl := List.length_eq_zero_iff.mp hcalls
    refine ⟨[], rfl, rfl, rfl, by simp, ?_⟩
    rwa [List.append_nil]
  | cons task waiting ih =>
    cases calls with
    | nil => cases hcalls
    | cons call calls =>
      obtain ⟨report, hresult, hran, hupdate, hdropped, hnext⟩ := h.runTask call
      obtain ⟨reports, hresults, hrans, hupdates, hdrops, hend⟩ :=
        ih hnext (Nat.succ.inj hcalls)
      have hlength : reports.length = waiting.length := by rw [← hrans, List.length_map]
      refine ⟨report :: reports, ?_, ?_, ?_, ?_, ?_⟩
      · rw [Warrior.runTasks, List.map_cons, ← hresults, ← hresult]
      · rw [List.map_cons, hran, hrans]
      · rw [List.map_cons, hupdate, hupdates]
        rfl
      · intro before other after hsplit
        cases before with
        | nil =>
          cases hsplit
          rw [List.append_nil, hlength]
          exact hdropped
        | cons first before =>
          cases hsplit
          simpa using hdrops before other after rfl
      · rw [← List.singleton_append, ← List.append_assoc]
        exact hend

/-- A call for each task of the queue runs every task once, in the order of the queue and at the
address it was queued with. The queue is then what these tasks have left behind, one after the other:
a task that goes on, and after it the new task. A new task is missing exactly if the tasks still
waiting, those queued so far in the round and the one that goes on are no fewer than the limit. -/
theorem runTasks_round (warrior : Warrior) {calls : List (Nat → Update)}
    (hcalls : calls.length = warrior.tasks.toList.length) :
    ∃ reports : List Report, (warrior.runTasks calls).1 = reports.map .ok ∧
      reports.map (·.ran) = warrior.tasks.toList ∧
      reports.map (·.update) =
        List.zipWith (fun call task => call task.address) calls warrior.tasks.toList ∧
      (∀ before report after, reports = before ++ report :: after →
        (report.dropped = true ↔ report.update.spawn.isSome ∧
          warrior.maxTasks ≤ after.length + (Report.queued warrior.nextTask before).length +
            report.continuation.length)) ∧
      (warrior.runTasks calls).2.tasks.toList = Report.queued warrior.nextTask reports ∧
      (warrior.runTasks calls).2.nextTask = warrior.nextTask + reports.countP (·.spawns) := by
  have hstart : Midway warrior [] warrior.tasks.toList warrior :=
    ⟨(List.append_nil _).symm, rfl, rfl⟩
  obtain ⟨reports, hresults, hrans, hupdates, hdrops, hend⟩ := hstart.runTasks hcalls
  exact ⟨reports, hresults, hrans, hupdates, hdrops, hend.tasks_eq, hend.nextTask_eq⟩

def trio : Warrior := ⟨0, ⟨[⟨0, 10⟩], [⟨2, 30⟩, ⟨1, 20⟩], 3, rfl⟩, 3, 3⟩

def trioCalls : List (Nat → Update) :=
  [fun pc => ⟨some (pc + 1), some 50⟩, fun _ => .halt, fun pc => ⟨some (pc + 1), some 60⟩]

theorem runTasks_round_trio :
    trioCalls.length = trio.tasks.toList.length ∧
    ∃ reports : List Report, (trio.runTasks trioCalls).1 = reports.map .ok ∧
      reports.map (·.ran) = [⟨0, 10⟩, ⟨1, 20⟩, ⟨2, 30⟩] ∧
      (trio.runTasks trioCalls).2.tasks.toList = Report.queued 3 reports ∧
      (trio.runTasks trioCalls).2.tasks.toList = [⟨0, 11⟩, ⟨2, 31⟩, ⟨3, 60⟩] := by
  have hcalls : trioCalls.length = trio.tasks.toList.length := rfl
  obtain ⟨reports, hresults, hrans, _, _, hqueue, _⟩ := runTasks_round trio hcalls
  exact ⟨hcalls, reports, hresults, hrans, hqueue, rfl⟩

end Warrior

end CoreWar
