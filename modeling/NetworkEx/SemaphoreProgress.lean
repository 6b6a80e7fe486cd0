import Mathlib.Algebra.Order.BigOperators.Group.List
import NetworkEx.SemaphoreCounter

namespace NetworkEx.SemaphoreProgress
open ProcessTable TransitionRuns SemaphoreCounter

def Own : Action → Prop
  | .p _ succeeds | .v _ succeeds => succeeds = true
  | .read _ | .write _ => True
  | .spawn _ | .setval _ _ => False

def Settled (s : State) : Prop := ∀ process ∈ s.processes, process.inside = false → process.semadj = 0

def Returns (_ : State) : Action → Prop
  | .v _ succeeds => succeeds = true
  | _ => True

-- One token: the semaphore's value and what the processes owe come to one.
structure Counted (calNum : BitVec 32) (s : State) : Prop where
  guarded : Guarded calNum s
  token : (s.semval : Int) + total s = 1

variable {calNum : BitVec 32} {s next : State} {process : Process} {pid : Nat}

theorem total_resets (s : State) (pid : Nat) (process : Process) : total (resets s pid process) = 0 := by
  have zeroed : ∀ other ∈ s.processes.map cleared, other.semadj = 0 := by
    intro other member
    obtain ⟨_,_,rfl⟩ := List.mem_map.mp member
    rfl
  have clear : ∀ other ∈ (resets s pid process).processes, other.semadj = 0 := all_set zeroed rfl
  apply List.sum_eq_zero
  intro amount member
  obtain ⟨other,here,rfl⟩ := List.mem_map.mp member
  exact clear other here

theorem token_set (token : (s.semval : Int) + total s = 1) (found : s.processes[pid]? = some process) (new : Process)
    (processes : next.processes = s.processes.set pid new) (semval : next.semval + new.semadj = s.semval + process.semadj) :
    (next.semval : Int) + total next = 1 := by
  have replaced := total_replaced found new
  rw [total,processes]
  omega

theorem counted_preserved (counted : Counted calNum s) (careful : Careful s action) (stepped : Stepped s action next) :
    Counted calNum next := by
  refine ⟨guarded_preserved counted.guarded careful stepped,?_⟩
  have token := counted.token
  cases stepped with
  | spawns => simpa [total] using token
  | sets found here => rw [total_resets]; rfl
  | unset found here | returns found here =>
    have owed := counted.guarded.nonneg _ (List.mem_of_getElem? found)
    refine token_set token found _ rfl ?_
    simp only [exits]
    omega
  | enters found here free =>
    refine token_set token found _ rfl ?_
    dsimp only
    omega
  | leaves found here =>
    refine token_set token found _ rfl ?_
    dsimp only
    omega
  | intrudes found | reads found | writes found | keeps found => exact token_set token found _ rfl rfl

theorem owed_sum {table : List Process} (nonneg : ∀ other ∈ table, 0 ≤ other.semadj) (member : process ∈ table) :
    process.semadj ≤ (table.map Process.semadj).sum := by
  apply List.single_le_sum
  · intro amount present
    obtain ⟨other,here,rfl⟩ := List.mem_map.mp present
    exact nonneg other here
  · exact List.mem_map_of_mem member

theorem owed_le (guarded : Guarded calNum s) (found : s.processes[pid]? = some process) : process.semadj + s.semval ≤ 1 := by
  have part := owed_sum guarded.nonneg (List.mem_of_getElem? found)
  have budget := guarded.budget
  unfold total at budget
  omega

theorem settled_set (settled : Settled s) (new : Process) (processes : next.processes = s.processes.set pid new)
    (fresh : new.inside = false → new.semadj = 0) : Settled next := by
  rw [Settled,processes]
  exact all_set settled fresh

theorem settled_preserved (guarded : Guarded calNum s) (settled : Settled s) (returns : Returns s action)
    (stepped : Stepped s action next) : Settled next := by
  cases stepped with
  | spawns => exact all_append settled fun _ => rfl
  | sets found here =>
    refine all_set ?_ fun _ => rfl
    intro other member _
    obtain ⟨_,_,rfl⟩ := List.mem_map.mp member
    rfl
  | unset found | returns found => exact settled_set settled _ rfl fun _ => rfl
  | enters found here free => exact settled_set settled _ rfl nofun
  | intrudes found | reads found | writes found => exact settled_set settled _ rfl nofun
  | leaves found here =>
    refine settled_set settled _ rfl fun _ => ?_
    have most := owed_le guarded found
    have least := guarded.owns _ (List.mem_of_getElem? found) (by simp [Process.inside,here])
    dsimp only
    omega
  | keeps found => cases returns

def Clears (s : State) (pid : Nat) : Prop :=
  ∃ more t, (∀ action ∈ more, Own action) ∧ run step s more = some t ∧ 1 ≤ t.semval ∧
    ∀ j, j ≠ pid → t.processes[j]? = s.processes[j]?

theorem clears_after (own : Own action) (stepped : step s action = some next)
    (others : ∀ j, j ≠ pid → next.processes[j]? = s.processes[j]?) (clears : Clears next pid) : Clears s pid := by
  obtain ⟨more,t,all,ran,free,same⟩ := clears
  refine ⟨action :: more,t,List.forall_mem_cons.mpr ⟨own,all⟩,?_,free,fun j other => (same j other).trans (others j other)⟩
  rw [run_cons,stepped]
  exact ran

theorem set_others (processes : List Process) (pid : Nat) (new : Process) (j : Nat) (other : j ≠ pid) :
    (processes.set pid new)[j]? = processes[j]? := List.getElem?_set_ne (Ne.symm other)

theorem inside_of (found : s.processes[pid]? = some process) : pid < s.processes.length :=
  (List.getElem?_eq_some_iff.mp found).1

theorem clears_written (found : s.processes[pid]? = some process) (here : process.stage = .written) : Clears s pid := by
  let next : State := {s with
    semval := s.semval + 1
    processes := s.processes.set pid {process with stage := .waiting,semadj := process.semadj - 1}}
  have stepped : step s (.v pid true) = some next := by simp [step,act,found,here,next]
  refine ⟨[.v pid true],next,by simp [Own],?_,Nat.succ_pos _,set_others _ _ _⟩
  rw [run_cons,stepped]
  rfl

theorem clears_read (found : s.processes[pid]? = some process) (here : process.stage = .read localVar) : Clears s pid := by
  have stepped : step s (.write pid) = some {moves s pid process .written with calNum := localVar,writes := s.writes + 1} := by
    simp [step,act,found,here]
  have own : Own (.write pid) := trivial
  have there : (s.processes.set pid {process with stage := .written})[pid]? = some {process with stage := .written} :=
    List.getElem?_set_self (inside_of found)
  apply clears_after own stepped (set_others _ _ _)
  apply clears_written there
  rfl

theorem clears_entered (found : s.processes[pid]? = some process) (here : process.stage = .entered) : Clears s pid := by
  have stepped : step s (.read pid) = some (moves s pid process (.read (s.calNum + 1))) := by simp [step,act,found,here]
  have own : Own (.read pid) := trivial
  let moved : Process := {process with stage := .read (s.calNum + 1)}
  have there : (s.processes.set pid moved)[pid]? = some moved := List.getElem?_set_self (inside_of found)
  apply clears_after own stepped (set_others _ _ _)
  apply clears_read there
  rfl

theorem clears_inside (found : s.processes[pid]? = some process) (inside : process.inside = true) : Clears s pid := by
  cases here : process.stage with
  | entered => exact clears_entered found here
  | read localVar => exact clears_read found here
  | written => exact clears_written found here
  | starting | waiting | exited => simp [Process.inside,here] at inside

def Enters (s : State) (pid : Nat) : Prop :=
  ∃ more t process, (∀ action ∈ more, Own action) ∧ run step s more = some t ∧ t.processes[pid]? = some process ∧
    process.stage = .entered

theorem enters_free (found : s.processes[pid]? = some process) (here : process.stage = .waiting) (free : 1 ≤ s.semval) :
    Enters s pid := by
  let entered : Process := {process with stage := .entered,semadj := process.semadj + 1}
  let next : State := {s with semval := s.semval - 1,processes := s.processes.set pid entered}
  have stepped : step s (.p pid true) = some next := by simp [step,act,found,here,free,next,entered]
  refine ⟨[.p pid true],next,entered,by simp [Own],?_,List.getElem?_set_self (inside_of found),rfl⟩
  rw [run_cons,stepped]
  rfl

theorem enters_cleared (clears : Clears s i) (other : pid ≠ i) (found : s.processes[pid]? = some process)
    (here : process.stage = .waiting) : Enters s pid := by
  obtain ⟨first,middle,all,ran,free,same⟩ := clears
  obtain ⟨second,t,entered,rest,onward,there,stage⟩ := enters_free ((same pid other).trans found) here free
  refine ⟨first ++ second,t,entered,List.forall_mem_append.mpr ⟨all,rest⟩,?_,there,stage⟩
  rw [run_append,ran]
  exact onward

theorem enters_settled (counted : Counted calNum s) (settled : Settled s) (found : s.processes[pid]? = some process)
    (here : process.stage = .waiting) : Enters s pid := by
  by_cases busy : ∃ other ∈ s.processes, other.inside = true
  · obtain ⟨other,member,inside⟩ := busy
    obtain ⟨i,there⟩ := List.getElem?_of_mem member
    refine enters_cleared (clears_inside there inside) ?_ found here
    rintro rfl
    cases there.symm.trans found
    simp [Process.inside,here] at inside
  · have nothing : total s = 0 := by
      apply List.sum_eq_zero
      intro amount member
      obtain ⟨other,present,rfl⟩ := List.mem_map.mp member
      exact settled other present (Bool.eq_false_iff.mpr fun inside => busy ⟨other,present,inside⟩)
    have token := counted.token
    exact enters_free found here (by omega)

-- With the token in the hands of a process outside, nobody is inside and the
-- semaphore is taken.
theorem owed_taken {i : Nat} (guarded : Guarded calNum s) (found : s.processes[i]? = some process)
    (outside : process.inside = false) (owes : process.semadj ≠ 0) :
    s.semval = 0 ∧ ∀ other ∈ s.processes, other.inside = false := by
  have most := owed_le guarded found
  have least := guarded.nonneg _ (List.mem_of_getElem? found)
  refine ⟨by omega,fun other member => Bool.eq_false_iff.mpr fun inside => ?_⟩
  obtain ⟨j,there⟩ := List.getElem?_of_mem member
  have different : j ≠ i := by
    rintro rfl
    cases there.symm.trans found
    rw [outside] at inside
    cases inside
  have rest := total_replaced found (cleared process)
  have part := owed_sum (all_set guarded.nonneg (Int.le_refl 0))
    (List.mem_of_getElem? ((set_others s.processes i (cleared process) j different).trans there))
  have owed := guarded.owns other member inside
  have budget := guarded.budget
  simp only [cleared] at rest part
  omega

theorem owed_stuck {i : Nat} (guarded : Guarded calNum s) (found : s.processes[i]? = some process)
    (outside : process.inside = false) (owes : process.semadj ≠ 0) (own : Own action) : step s action = none := by
  obtain ⟨taken,nobody⟩ := owed_taken guarded found outside owes
  by_contra goes
  obtain ⟨next,ran⟩ := Option.ne_none_iff_exists'.mp goes
  have away : ∀ {pid : Nat} {other : Process}, s.processes[pid]? = some other → other.inside ≠ true := fun there inside => by
    rw [nobody _ (List.mem_of_getElem? there)] at inside
    cases inside
  cases step_sound ran with
  | spawns | sets | unset => exact own.elim
  | returns | intrudes | keeps => cases own
  | enters there here free => omega
  | reads there here | writes there here | leaves there here => exact away there (by simp [Process.inside,here])

theorem run_guarded (binary : semval ≤ 1) (careful : Every step Careful (initial semval calNum) actions)
    (ran : run step (initial semval calNum) actions = some s) : Guarded calNum s :=
  run_preserves (fun _ _ _ guarded careful ran => guarded_preserved guarded careful (step_sound ran))
    (initial_guarded binary) careful ran

theorem counted_along (counted : Counted calNum s) (careful : Every step Careful s actions) (ran : run step s actions = some next) :
    Counted calNum next :=
  run_preserves (fun _ _ _ counted careful ran => counted_preserved counted careful (step_sound ran)) counted careful ran

theorem run_counted (binary : semval ≤ 1) (set : semval = 1 ∨ ∃ pid, .setval pid true ∈ actions)
    (careful : Every step Careful (initial semval calNum) actions) (ran : run step (initial semval calNum) actions = some s) :
    Counted calNum s := by
  rcases set with rfl | ⟨pid,member⟩
  · exact counted_along ⟨initial_guarded binary,rfl⟩ careful ran
  · obtain ⟨first,rest,rfl⟩ := List.append_of_mem member
    rw [run_append] at ran
    obtain ⟨middle,before,onward⟩ := Option.bind_eq_some_iff.mp ran
    obtain ⟨front,here,later⟩ := every_append careful before
    obtain ⟨after,stepped,onward⟩ := run_cons_some onward
    have guarded := run_guarded binary front before
    refine counted_along ⟨guarded_preserved guarded here (step_sound stepped),?_⟩ (later after stepped) onward
    cases step_sound stepped with
    | sets found => rw [total_resets]; rfl

-- In a run in which the semaphore has been set, and no producer sets it while a
-- process is inside, a process at its P can get in exactly where no process
-- outside has the token; and none has while every V succeeds, whose answer nobody
-- looks at.
theorem semaphore_lives (binary : semval ≤ 1) (set : semval = 1 ∨ ∃ pid, .setval pid true ∈ actions)
    (careful : Every step Careful (initial semval calNum) actions) (ran : run step (initial semval calNum) actions = some s) :
    (∀ pid process, s.processes[pid]? = some process → process.stage = .waiting → (Enters s pid ↔ Settled s)) ∧
    (Every step Returns (initial semval calNum) actions → Settled s) := by
  have counted := run_counted binary set careful ran
  constructor
  · intro pid process found waits
    refine ⟨?_,fun settled => enters_settled counted settled found waits⟩
    rintro ⟨more,t,entered,own,onward,there,stage⟩ other member outside
    by_contra owes
    obtain ⟨i,held⟩ := List.getElem?_of_mem member
    cases more with
    | nil =>
      cases onward
      cases found.symm.trans there
      cases waits.symm.trans stage
    | cons action rest =>
      obtain ⟨next,stepped,_⟩ := run_cons_some onward
      have stuck := owed_stuck counted.guarded held outside owes (own action List.mem_cons_self)
      cases stuck.symm.trans stepped
  · intro returns
    let Kept (s : State) : Prop := Guarded calNum s ∧ Settled s
    have keeps : ∀ s action next, Kept s → Careful s action ∧ Returns s action → step s action = some next → Kept next :=
      fun s action next kept held ran => ⟨guarded_preserved kept.1 held.1 (step_sound ran),
        settled_preserved kept.1 kept.2 held.2 (step_sound ran)⟩
    have kept : Kept s := run_preserves keeps ⟨initial_guarded binary,nofun⟩ (every_and careful returns) ran
    exact kept.2

def failedV : List Action := [.spawn true,.setval 0 true,.spawn false,.p 0 true,.read 0,.write 0,.v 0 false]

theorem semaphore_lives_failed : ∃ s, run step (initial 0 7) failedV = some s ∧ ¬ Enters s 0 ∧ ¬ Enters s 1 := by
  have ends : (run step (initial 0 7) failedV).map State.processes = some [⟨true,.waiting,1⟩,⟨false,.waiting,0⟩] := by decide +kernel
  obtain ⟨s,ran,processes⟩ := Option.map_eq_some_iff.mp ends
  have lives := (semaphore_lives (by decide) (.inr ⟨0,by simp [failedV]⟩) (by decide) ran).1
  have unsettled : ¬ Settled s := by
    intro settled
    have owes := settled ⟨true,.waiting,1⟩ (by rw [processes]; exact List.mem_cons_self) rfl
    exact absurd owes (by decide)
  refine ⟨s,ran,?_,?_⟩
  · rw [lives 0 ⟨true,.waiting,1⟩ (by rw [processes]; rfl) rfl]
    exact unsettled
  · rw [lives 1 ⟨false,.waiting,0⟩ (by rw [processes]; rfl) rfl]
    exact unsettled

end NetworkEx.SemaphoreProgress
