import NetworkEx.ProcessTable
import NetworkEx.TransitionRuns

namespace NetworkEx.SemaphoreCounter
open ProcessTable TransitionRuns

-- Where a process stands: a producer before its SETVAL, both before their P,
-- after it, with local_var made of *cal_num, and with it stored there.
inductive Stage where
  | starting
  | waiting
  | entered
  | read (localVar : BitVec 32)
  | written
  | exited
  deriving DecidableEq

structure Process where
  producer : Bool
  stage : Stage
  semadj : Int
  deriving DecidableEq

-- Between its P and its V, whatever the P answered.
def Process.inside (process : Process) : Bool :=
  match process.stage with
  | .entered | .read _ | .written => true
  | _ => false

-- `writes` is history: how many increments have been stored.
structure State where
  semval : Nat
  calNum : BitVec 32
  writes : Nat
  processes : List Process

def initial (semval : Nat) (calNum : BitVec 32) : State := ⟨semval,calNum,0,[]⟩

inductive Action where
  | spawn (producer : Bool)
  | setval (pid : Nat) (succeeds : Bool)
  | p (pid : Nat) (succeeds : Bool)
  | read (pid : Nat)
  | write (pid : Nat)
  | v (pid : Nat) (succeeds : Bool)

def cleared (process : Process) : Process := {process with semadj := 0}

def exits (s : State) (pid : Nat) (process : Process) : State :=
  {s with
    semval := (s.semval + process.semadj).toNat,
    processes := s.processes.set pid {process with stage := .exited,semadj := 0}}

def moves (s : State) (pid : Nat) (process : Process) (stage : Stage) : State :=
  {s with processes := s.processes.set pid {process with stage := stage}}

-- SETVAL clears every process's adjustment.
def resets (s : State) (pid : Nat) (process : Process) : State :=
  {s with semval := 1,processes := (s.processes.map cleared).set pid {process with stage := .waiting,semadj := 0}}

-- A P waits for a semaphore above 0;
-- where it fails, the producer returns and the consumer goes on. Nobody looks
-- at what the V answers.
def act (s : State) (pid : Nat) (process : Process) : Action → Option State
  | .spawn _ => none
  | .setval _ succeeds =>
    if process.stage = .starting then
      if succeeds then some (resets s pid process) else some (exits s pid process)
    else none
  | .p _ succeeds =>
    if process.stage = .waiting then
      if succeeds then
        if 1 ≤ s.semval then
          some {s with
            semval := s.semval - 1,
            processes := s.processes.set pid {process with stage := .entered,semadj := process.semadj + 1}}
        else none
      else if process.producer then some (exits s pid process)
      else some (moves s pid process .entered)
    else none
  | .read _ => if process.stage = .entered then some (moves s pid process (.read (s.calNum + 1))) else none
  | .write _ =>
    match process.stage with
    | .read localVar => some {moves s pid process .written with calNum := localVar,writes := s.writes + 1}
    | _ => none
  | .v _ succeeds =>
    if process.stage = .written then
      if succeeds then
        some {s with
          semval := s.semval + 1,
          processes := s.processes.set pid {process with stage := .waiting,semadj := process.semadj - 1}}
      else some (moves s pid process .waiting)
    else none

def step (s : State) (action : Action) : Option State :=
  match action with
  | .spawn producer =>
    some {s with processes := s.processes ++ [⟨producer,if producer then .starting else .waiting,0⟩]}
  | .setval pid _ | .p pid _ | .read pid | .write pid | .v pid _ =>
    (s.processes[pid]?).bind fun process => act s pid process action

inductive Stepped : State → Action → State → Prop where
  | spawns : Stepped s (.spawn producer)
      {s with processes := s.processes ++ [⟨producer,if producer then .starting else .waiting,0⟩]}
  | sets (found : s.processes[pid]? = some process) (here : process.stage = .starting) :
      Stepped s (.setval pid true) (resets s pid process)
  | unset (found : s.processes[pid]? = some process) (here : process.stage = .starting) :
      Stepped s (.setval pid false) (exits s pid process)
  | enters (found : s.processes[pid]? = some process) (here : process.stage = .waiting) (free : 1 ≤ s.semval) :
      Stepped s (.p pid true) {s with
        semval := s.semval - 1,
        processes := s.processes.set pid {process with stage := .entered,semadj := process.semadj + 1}}
  | returns (found : s.processes[pid]? = some process) (here : process.stage = .waiting)
      (producer : process.producer = true) : Stepped s (.p pid false) (exits s pid process)
  | intrudes (found : s.processes[pid]? = some process) (here : process.stage = .waiting)
      (consumer : process.producer = false) : Stepped s (.p pid false) (moves s pid process .entered)
  | reads (found : s.processes[pid]? = some process) (here : process.stage = .entered) :
      Stepped s (.read pid) (moves s pid process (.read (s.calNum + 1)))
  | writes (found : s.processes[pid]? = some process) (here : process.stage = .read localVar) :
      Stepped s (.write pid) {moves s pid process .written with calNum := localVar,writes := s.writes + 1}
  | leaves (found : s.processes[pid]? = some process) (here : process.stage = .written) :
      Stepped s (.v pid true) {s with
        semval := s.semval + 1,
        processes := s.processes.set pid {process with stage := .waiting,semadj := process.semadj - 1}}
  | keeps (found : s.processes[pid]? = some process) (here : process.stage = .written) :
      Stepped s (.v pid false) (moves s pid process .waiting)

theorem step_sound (ran : step s action = some next) : Stepped s action next := by
  cases action with
  | spawn producer =>
    cases ran
    exact .spawns
  | setval pid succeeds =>
    simp only [step,act,Option.bind_eq_some_iff,Option.ite_none_right_eq_some] at ran
    obtain ⟨process,found,here,ran⟩ := ran
    cases succeeds <;> cases ran
    · exact .unset found here
    · exact .sets found here
  | p pid succeeds =>
    simp only [step,act,Option.bind_eq_some_iff,Option.ite_none_right_eq_some] at ran
    obtain ⟨process,found,here,ran⟩ := ran
    cases succeeds with
    | true =>
      simp only [if_true,Option.ite_none_right_eq_some,Option.some.injEq] at ran
      obtain ⟨free,rfl⟩ := ran
      exact .enters found here free
    | false =>
      simp only [Bool.false_eq_true,if_false] at ran
      split at ran
      · rename_i producer
        cases ran
        exact .returns found here producer
      · rename_i consumer
        cases ran
        exact .intrudes found here (Bool.eq_false_iff.mpr consumer)
  | read pid =>
    simp only [step,act,Option.bind_eq_some_iff,Option.ite_none_right_eq_some,Option.some.injEq] at ran
    obtain ⟨process,found,here,rfl⟩ := ran
    exact .reads found here
  | write pid =>
    simp only [step,act,Option.bind_eq_some_iff] at ran
    obtain ⟨process,found,ran⟩ := ran
    split at ran
    · rename_i localVar here
      cases ran
      exact .writes found here
    · cases ran
  | v pid succeeds =>
    simp only [step,act,Option.bind_eq_some_iff,Option.ite_none_right_eq_some] at ran
    obtain ⟨process,found,here,ran⟩ := ran
    cases succeeds <;> cases ran
    · exact .keeps found here
    · exact .leaves found here

structure Exclusive (calNum : BitVec 32) (s : State) : Prop where
  one : s.processes.countP Process.inside ≤ 1
  counted : (∀ process ∈ s.processes, process.inside = false) → s.calNum = calNum + BitVec.ofNat 32 s.writes

-- No producer sets the semaphore while a process is inside, and no consumer's
-- P fails.
def Careful (s : State) : Action → Prop
  | .setval _ succeeds => succeeds = true → ∀ process ∈ s.processes, process.inside = false
  | .p pid succeeds => succeeds = false → ∀ process, s.processes[pid]? = some process → process.producer = true
  | _ => True

instance (s : State) : (action : Action) → Decidable (Careful s action)
  | .setval _ succeeds => inferInstanceAs (Decidable (succeeds = true → ∀ process ∈ s.processes, process.inside = false))
  | .p pid succeeds =>
    inferInstanceAs (Decidable (succeeds = false → ∀ process ∈ s.processes[pid]?, process.producer = true))
  | .spawn _ | .read _ | .write _ | .v _ _ => .isTrue trivial

def total (s : State) : Int := (s.processes.map Process.semadj).sum

-- The value and what the processes owe to it come to one at most; a process
-- inside owes one. So only one is inside, and what it has read is current.
structure Guarded (calNum : BitVec 32) (s : State) : Prop where
  budget : (s.semval : Int) + total s ≤ 1
  nonneg : ∀ process ∈ s.processes, 0 ≤ process.semadj
  owns : ∀ process ∈ s.processes, process.inside = true → 1 ≤ process.semadj
  counted : s.calNum = calNum + BitVec.ofNat 32 s.writes
  current : ∀ process ∈ s.processes, ∀ localVar, process.stage = .read localVar → localVar = s.calNum + 1

theorem initial_guarded (binary : semval ≤ 1) : Guarded calNum (initial semval calNum) := by
  refine ⟨?_,by simp [initial],by simp [initial],by simp [initial],by simp [initial]⟩
  simp only [initial,total,List.map_nil,List.sum_nil]
  omega

theorem guarded_one (guarded : Guarded calNum s) : s.processes.countP Process.inside ≤ 1 := by
  have owed := countP_le_total Process.inside Process.semadj guarded.nonneg guarded.owns
  have budget := guarded.budget
  unfold total at budget
  omega

theorem guarded_exclusive (guarded : Guarded calNum s) : Exclusive calNum s := ⟨guarded_one guarded,fun _ => guarded.counted⟩

theorem total_replaced (found : s.processes[pid]? = some process) (new : Process) :
    ((s.processes.set pid new).map Process.semadj).sum + process.semadj = total s + new.semadj :=
  total_set Process.semadj found new

theorem inside_of_read (process : Process) (here : process.stage = .read localVar) : process.inside = true := by
  simp [Process.inside,here]

theorem guarded_moves (guarded : Guarded calNum s) (found : s.processes[pid]? = some process)
    (owned : ({process with stage := stage} : Process).inside = true → process.inside = true)
    (current : ∀ localVar, stage = .read localVar → localVar = s.calNum + 1) : Guarded calNum (moves s pid process stage) := by
  have member := List.mem_of_getElem? found
  have same := total_replaced found {process with stage := stage}
  have budget := guarded.budget
  refine ⟨?_,all_set guarded.nonneg (guarded.nonneg process member),?_,guarded.counted,all_set guarded.current current⟩
  · simp only [moves,total] at same ⊢
    unfold total at budget
    omega
  · exact all_set guarded.owns fun inside => guarded.owns process member (owned inside)

theorem guarded_exits (guarded : Guarded calNum s) (found : s.processes[pid]? = some process) :
    Guarded calNum (exits s pid process) := by
  have owed := guarded.nonneg process (List.mem_of_getElem? found)
  have paid := total_replaced found {process with stage := .exited,semadj := 0}
  have budget := guarded.budget
  refine ⟨?_,all_set guarded.nonneg (Int.le_refl 0),all_set guarded.owns nofun,guarded.counted,all_set guarded.current nofun⟩
  simp only [exits,total] at paid ⊢
  unfold total at budget
  omega

theorem guarded_resets (guarded : Guarded calNum s) (outside : ∀ process ∈ s.processes, process.inside = false)
    (process : Process) : Guarded calNum (resets s pid process) := by
  have zeroed : ∀ other ∈ s.processes.map cleared, other.semadj = 0 := by
    intro other member
    obtain ⟨_,_,rfl⟩ := List.mem_map.mp member
    rfl
  have still : ∀ other ∈ s.processes.map cleared, other.inside = false := by
    intro other member
    obtain ⟨old,before,rfl⟩ := List.mem_map.mp member
    exact outside old before
  have clear : ∀ other ∈ (resets s pid process).processes, other.semadj = 0 := all_set zeroed rfl
  have away : ∀ other ∈ (resets s pid process).processes, other.inside = false := all_set still rfl
  have nothing : total (resets s pid process) = 0 := by
    apply List.sum_eq_zero
    intro amount member
    obtain ⟨other,here,rfl⟩ := List.mem_map.mp member
    exact clear other here
  refine ⟨?_,?_,?_,guarded.counted,?_⟩
  · rw [nothing]
    exact Int.le_refl 1
  · intro other member
    rw [clear other member]
  · intro other member inside
    rw [away other member] at inside
    cases inside
  · intro other member localVar here
    have inside := inside_of_read other here
    rw [away other member] at inside
    cases inside

theorem guarded_enters (guarded : Guarded calNum s) (found : s.processes[pid]? = some process) (free : 1 ≤ s.semval) :
    Guarded calNum {s with
      semval := s.semval - 1,
      processes := s.processes.set pid {process with stage := .entered,semadj := process.semadj + 1}} := by
  have owed := guarded.nonneg process (List.mem_of_getElem? found)
  have taken := total_replaced found {process with stage := .entered,semadj := process.semadj + 1}
  have budget := guarded.budget
  have more : 0 ≤ process.semadj + 1 ∧ 1 ≤ process.semadj + 1 := by omega
  refine ⟨?_,all_set guarded.nonneg more.1,all_set guarded.owns fun _ => more.2,guarded.counted,all_set guarded.current nofun⟩
  simp only [total] at taken ⊢
  unfold total at budget
  omega

theorem guarded_leaves (guarded : Guarded calNum s) (found : s.processes[pid]? = some process)
    (here : process.stage = .written) :
    Guarded calNum {s with
      semval := s.semval + 1,
      processes := s.processes.set pid {process with stage := .waiting,semadj := process.semadj - 1}} := by
  have owed := guarded.owns process (List.mem_of_getElem? found) (by simp [Process.inside,here])
  have given := total_replaced found {process with stage := .waiting,semadj := process.semadj - 1}
  have budget := guarded.budget
  have less : 0 ≤ process.semadj - 1 := by omega
  refine ⟨?_,all_set guarded.nonneg less,all_set guarded.owns nofun,guarded.counted,all_set guarded.current nofun⟩
  simp only [total] at given ⊢
  unfold total at budget
  omega

-- The store counts, and no other process has read what it overwrites.
theorem guarded_writes (guarded : Guarded calNum s) (found : s.processes[pid]? = some process)
    (here : process.stage = .read localVar) :
    Guarded calNum {moves s pid process .written with calNum := localVar,writes := s.writes + 1} := by
  have entered := inside_of_read process here
  have kept : Guarded calNum (moves s pid process .written) :=
    guarded_moves guarded found (fun _ => entered) nofun
  have next := guarded.current process (List.mem_of_getElem? found) localVar here
  refine ⟨kept.budget,kept.nonneg,kept.owns,?_,?_⟩
  · show localVar = calNum + BitVec.ofNat 32 (s.writes + 1)
    rw [next,guarded.counted,BitVec.add_assoc]
    congr 1
    exact (BitVec.ofNat_add s.writes 1).symm
  · intro other member otherVar there
    obtain ⟨i,known⟩ := List.getElem?_of_mem member
    rcases set_found known with ⟨_,rfl⟩ | ⟨different,old⟩
    · cases there
    · have same := alone (guarded_one guarded) old found (inside_of_read other there) entered
      exact absurd same different

theorem guarded_preserved (guarded : Guarded calNum s) (careful : Careful s action) (stepped : Stepped s action next) :
    Guarded calNum next := by
  cases stepped with
  | spawns =>
    rename_i producer
    have outside : (⟨producer,if producer then .starting else .waiting,0⟩ : Process).inside = false := by
      cases producer <;> rfl
    refine ⟨?_,all_append guarded.nonneg (Int.le_refl 0),all_append guarded.owns ?_,guarded.counted,
      all_append guarded.current ?_⟩
    · simpa [total] using guarded.budget
    · intro inside
      rw [outside] at inside
      cases inside
    · intro localVar here
      have inside := inside_of_read _ here
      rw [outside] at inside
      cases inside
  | sets found here => exact guarded_resets guarded (careful rfl) _
  | unset found here => exact guarded_exits guarded found
  | enters found here free => exact guarded_enters guarded found free
  | returns found here producer => exact guarded_exits guarded found
  | intrudes found here consumer =>
    have producer := careful rfl _ found
    rw [consumer] at producer
    cases producer
  | reads found here =>
    apply guarded_moves guarded found
    · intro _
      simp [Process.inside,here]
    · intro localVar same
      cases same
      rfl
  | writes found here => exact guarded_writes guarded found here
  | leaves found here => exact guarded_leaves guarded found here
  | keeps found here => exact guarded_moves guarded found nofun nofun

theorem counter_exclusive (binary : semval ≤ 1) (careful : Every step Careful (initial semval calNum) actions) :
    Always step (Exclusive calNum) (initial semval calNum) actions := by
  have keeps : ∀ s action next, Guarded calNum s → Careful s action → step s action = some next → Guarded calNum next :=
    fun s action next guarded held moved => guarded_preserved guarded held (step_sound moved)
  exact always_of_preserves keeps (fun s guarded => guarded_exclusive guarded) (initial_guarded binary) careful

def failedP : List Action :=
  [.spawn true,.setval 0 true,.p 0 true,.spawn false,.p 1 false,.read 0,.read 1,.write 0,.write 1,.v 0 true,.v 1 true]
def lateProducer : List Action := [.spawn true,.setval 0 true,.p 0 true,.spawn true,.setval 1 true,.p 1 true]

theorem counter_exclusive_one_round :
    Always step (Exclusive 7) (initial 0 7) [.spawn true,.setval 0 true,.p 0 true,.read 0,.write 0,.v 0 true] := by
  have binary : 0 ≤ 1 := by decide
  exact counter_exclusive binary (by decide)

theorem increment_lost :
    (run step (initial 0 7) failedP).map (fun s => (s.calNum,s.writes,s.processes.countP Process.inside)) = some (8,2,0) ∧
    ¬ Always step (Exclusive 7) (initial 0 7) failedP ∧
    (run step (initial 0 7) lateProducer).map (fun s => s.processes.countP Process.inside) = some 2 ∧
    ¬ Always step (Exclusive 7) (initial 0 7) lateProducer := by
  have lost : (run step (initial 0 7) failedP).map (fun s => (s.calNum,s.writes,s.processes.countP Process.inside)) =
      some (8,2,0) := by decide +kernel
  have both : (run step (initial 0 7) lateProducer).map (fun s => s.processes.countP Process.inside) = some 2 := by
    decide +kernel
  refine ⟨lost,?_,both,?_⟩
  · intro always
    obtain ⟨s,exclusive,ends⟩ := always_seen always lost
    simp only [Prod.mk.injEq] at ends
    obtain ⟨calNum,writes,nobody⟩ := ends
    have counted := exclusive.counted
    have outside : ∀ process ∈ s.processes, process.inside = false := by
      intro process member
      exact Bool.eq_false_iff.mpr (List.countP_eq_zero.mp nobody process member)
    have wrong := counted outside
    rw [calNum,writes] at wrong
    exact absurd wrong (by decide)
  · intro always
    obtain ⟨s,exclusive,ends⟩ := always_seen always both
    have one := exclusive.one
    rw [ends] at one
    exact absurd one (by decide)

end NetworkEx.SemaphoreCounter
