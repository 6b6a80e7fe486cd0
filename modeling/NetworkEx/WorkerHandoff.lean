import Mathlib.Data.List.Count
import Mathlib.Data.Option.Basic
import Mathlib.Logic.Function.Basic
import NetworkEx.ProcessTable
import NetworkEx.TransitionRuns

namespace NetworkEx.WorkerHandoff
open ProcessTable TransitionRuns

-- A thread from its creation to its close. `sockfd` is what it found in
-- client_fd, none for -1, with the connection that number stood for.
inductive Stage where
  | created
  | serving (sockfd connection : Option Nat)
  | ended (connection : Option Nat)
  deriving DecidableEq

-- `own` is the connection it was created for, `born` how often accept had
-- returned by then.
structure Worker where
  own : Nat
  born : Nat
  stage : Stage
  deriving DecidableEq

inductive Pc where
  | accept
  | create
  deriving DecidableEq

-- Connections are numbered in the order of accept. `opened` has the one behind
-- each open descriptor.
structure State where
  pc : Pc
  clientFd : Option Nat
  opened : Nat → Option Nat
  accepted : Nat
  returns : Nat
  workers : List Worker

def initial : State := ⟨.accept,none,fun _ => none,0,0,[]⟩

inductive Action where
  | accept (answer : Option Nat)
  | create (succeeds : Bool)
  | start (w : Nat)
  | finish (w : Nat)

def closed (opened : Nat → Option Nat) : Option Nat → Nat → Option Nat
  | none => opened
  | some fd => Function.update opened fd none

def began (s : State) (worker : Worker) : Worker :=
  {worker with stage := .serving s.clientFd (s.clientFd.bind s.opened)}

-- A worker's first statement reads client_fd through the pointer, its last one
-- closes what it read. main does not look at the result of pthread_create.
def step (s : State) : Action → Option State
  | .accept none =>
    if s.pc = .accept then some {s with clientFd := none,returns := s.returns + 1} else none
  | .accept (some fd) =>
    if s.pc = .accept ∧ s.opened fd = none then
      some {s with
        pc := .create,clientFd := some fd,opened := Function.update s.opened fd (some s.accepted),
        accepted := s.accepted + 1,returns := s.returns + 1}
    else none
  | .create succeeds =>
    if s.pc = .create then
      some {s with
        pc := .accept,
        workers := if succeeds then s.workers ++ [⟨s.accepted - 1,s.returns,.created⟩] else s.workers}
    else none
  | .start w =>
    (s.workers[w]?).bind fun worker =>
      if worker.stage = .created then some {s with workers := s.workers.set w (began s worker)} else none
  | .finish w =>
    (s.workers[w]?).bind fun worker =>
      match worker.stage with
      | .serving sockfd connection =>
        some {s with
          opened := closed s.opened sockfd,workers := s.workers.set w {worker with stage := .ended connection}}
      | _ => none

inductive Stepped : State → Action → State → Prop where
  | acceptFails (here : s.pc = .accept) : Stepped s (.accept none) {s with clientFd := none,returns := s.returns + 1}
  | accepts (here : s.pc = .accept) (free : s.opened fd = none) :
      Stepped s (.accept (some fd)) {s with
        pc := .create,clientFd := some fd,opened := Function.update s.opened fd (some s.accepted),
        accepted := s.accepted + 1,returns := s.returns + 1}
  | creates (here : s.pc = .create) :
      Stepped s (.create true) {s with pc := .accept,workers := s.workers ++ [⟨s.accepted - 1,s.returns,.created⟩]}
  | createFails (here : s.pc = .create) : Stepped s (.create false) {s with pc := .accept}
  | starts (found : s.workers[w]? = some worker) (fresh : worker.stage = .created) :
      Stepped s (.start w) {s with workers := s.workers.set w (began s worker)}
  | finishes (found : s.workers[w]? = some worker) (serving : worker.stage = .serving sockfd connection) :
      Stepped s (.finish w) {s with
        opened := closed s.opened sockfd,workers := s.workers.set w {worker with stage := .ended connection}}

theorem step_sound (ran : step s action = some next) : Stepped s action next := by
  cases action with
  | accept answer =>
    cases answer with
    | none =>
      simp only [step,Option.ite_none_right_eq_some,Option.some.injEq] at ran
      obtain ⟨here,rfl⟩ := ran
      exact .acceptFails here
    | some fd =>
      simp only [step,Option.ite_none_right_eq_some,Option.some.injEq] at ran
      obtain ⟨⟨here,free⟩,rfl⟩ := ran
      exact .accepts here free
  | create succeeds =>
    simp only [step,Option.ite_none_right_eq_some,Option.some.injEq] at ran
    obtain ⟨here,rfl⟩ := ran
    cases succeeds with
    | false => exact .createFails here
    | true => exact .creates here
  | start w =>
    simp only [step,Option.bind_eq_some_iff,Option.ite_none_right_eq_some,Option.some.injEq] at ran
    obtain ⟨worker,found,fresh,rfl⟩ := ran
    exact .starts found fresh
  | finish w =>
    simp only [step,Option.bind_eq_some_iff] at ran
    obtain ⟨worker,found,ran⟩ := ran
    split at ran
    · rename_i sockfd connection serving
      cases ran
      exact .finishes found serving
    · cases ran

def Worker.takes (worker : Worker) : Option Nat :=
  match worker.stage with
  | .created => some worker.own
  | .serving _ connection => connection
  | .ended connection => connection

def past (s : State) : Nat := if s.pc = .create then s.accepted - 1 else s.accepted

structure Handed (s : State) : Prop where
  own : ∀ worker ∈ s.workers, worker.takes = some worker.own
  once : ∀ k, k < past s → (s.workers.map Worker.takes).count (some k) = 1

-- pthread_create succeeds, and its thread reads client_fd before accept comes
-- back once more.
def Timely (s : State) : Action → Prop
  | .create succeeds => succeeds = true
  | .start w => ∀ worker, s.workers[w]? = some worker → worker.born = s.returns
  | _ => True

-- What runs of timely steps keep true. The i-th worker has the i-th connection.
-- One that has not begun may find another number in client_fd or none, but
-- only once accept has come back; a descriptor stays open while it is served.
structure Orderly (s : State) : Prop where
  count : s.workers.length = past s
  owner : ∀ (i : Nat) (worker : Worker), s.workers[i]? = some worker → worker.own = i ∧ worker.takes = some i ∧ worker.born ≤ s.returns
  overtaken : ∀ (i : Nat) (worker : Worker), s.workers[i]? = some worker → worker.born ≠ s.returns → s.clientFd = none ∨ i + 1 < s.accepted
  newest : ∀ (i : Nat) (worker : Worker), s.workers[i]? = some worker → worker.stage = .created → worker.born = s.returns →
    s.clientFd.bind s.opened = some i
  creating : s.pc = .create → 0 < s.accepted ∧ s.clientFd.bind s.opened = some (s.accepted - 1)
  kept : ∀ (i : Nat) (worker : Worker) sockfd connection, s.workers[i]? = some worker → worker.stage = .serving sockfd connection →
    sockfd.bind s.opened = some i
  current : ∀ k, s.clientFd.bind s.opened = some k → k + 1 = s.accepted

theorem initial_orderly : Orderly initial :=
  ⟨rfl,by simp [initial],by simp [initial],by simp [initial],nofun,by simp [initial],by simp [initial]⟩

theorem bind_closed {sockfd fd : Option Nat} {opened : Nat → Option Nat} (open_ : sockfd.bind opened = some i) (other : fd.bind opened = some k) (different : k ≠ i) :
    fd.bind (closed opened sockfd) = some k := by
  obtain ⟨number,rfl,here⟩ := Option.bind_eq_some_iff.mp open_
  obtain ⟨mine,rfl,there⟩ := Option.bind_eq_some_iff.mp other
  have apart : mine ≠ number := by
    intro same
    rw [same,here] at there
    exact different (Option.some.inj there).symm
  simp [closed,Function.update_of_ne apart,there]

theorem bind_of_closed {sockfd fd : Option Nat} {opened : Nat → Option Nat} (other : fd.bind (closed opened sockfd) = some k) : fd.bind opened = some k := by
  obtain ⟨mine,rfl,there⟩ := Option.bind_eq_some_iff.mp other
  cases sockfd with
  | none => exact there
  | some number =>
    by_cases equal : mine = number
    · subst equal
      simp [closed] at there
    · simpa [closed,Function.update_of_ne equal] using there

theorem worker_past (orderly : Orderly s) (found : s.workers[i]? = some worker) : i < past s := by
  rw [← orderly.count]
  exact (List.getElem?_eq_some_iff.mp found).1

theorem orderly_acceptFails (orderly : Orderly s) (here : s.pc = .accept) :
    Orderly {s with clientFd := none,returns := s.returns + 1} := by
  refine ⟨orderly.count,?_,fun _ _ _ _ => .inl rfl,?_,?_,orderly.kept,nofun⟩
  · intro i worker found
    obtain ⟨own,takes,born⟩ := orderly.owner i worker found
    exact ⟨own,takes,Nat.le_succ_of_le born⟩
  · intro i worker found _ same
    have born := (orderly.owner i worker found).2.2
    exact absurd same (by simp only; omega)
  · intro create
    cases here.symm.trans create

theorem orderly_accepts (orderly : Orderly s) (here : s.pc = .accept) (free : s.opened fd = none) :
    Orderly {s with
      pc := .create,clientFd := some fd,opened := Function.update s.opened fd (some s.accepted),
      accepted := s.accepted + 1,returns := s.returns + 1} := by
  have done : past s = s.accepted := by simp [past,here]
  refine ⟨?_,?_,?_,?_,?_,?_,?_⟩
  · simpa [past,here] using orderly.count
  · intro i worker found
    obtain ⟨own,takes,born⟩ := orderly.owner i worker found
    exact ⟨own,takes,Nat.le_succ_of_le born⟩
  · intro i worker found _
    have older := worker_past orderly found
    exact .inr (by simp only; omega)
  · intro i worker found _ same
    have born := (orderly.owner i worker found).2.2
    exact absurd same (by simp only; omega)
  · intro _
    exact ⟨Nat.succ_pos _,by simp⟩
  · intro i worker sockfd connection found serving
    obtain ⟨number,rfl,there⟩ := Option.bind_eq_some_iff.mp (orderly.kept i worker sockfd connection found serving)
    have apart : number ≠ fd := by
      intro same
      rw [same,free] at there
      cases there
    simp [Function.update_of_ne apart,there]
  · intro k found
    simp at found
    simp [found]

theorem orderly_creates (orderly : Orderly s) (here : s.pc = .create) :
    Orderly {s with pc := .accept,workers := s.workers ++ [⟨s.accepted - 1,s.returns,.created⟩]} := by
  obtain ⟨some_,reads⟩ := orderly.creating here
  have length : s.workers.length = s.accepted - 1 := by simpa [past,here] using orderly.count
  have either : ∀ {i worker}, (s.workers ++ [⟨s.accepted - 1,s.returns,.created⟩])[i]? = some worker →
      s.workers[i]? = some worker ∨ i = s.accepted - 1 ∧ worker = ⟨s.accepted - 1,s.returns,.created⟩ := by
    intro i worker found
    rcases append_found found with old | ⟨place,same⟩
    · exact .inl old
    · exact .inr ⟨place.trans length,same⟩
  refine ⟨?_,?_,?_,?_,nofun,?_,orderly.current⟩
  · simp only [List.length_append,List.length_singleton,past,reduceCtorEq,if_false]
    omega
  · intro i worker found
    rcases either found with old | ⟨rfl,rfl⟩
    · exact orderly.owner i worker old
    · exact ⟨rfl,rfl,Nat.le_refl _⟩
  · intro i worker found late
    rcases either found with old | ⟨rfl,rfl⟩
    · exact orderly.overtaken i worker old late
    · exact absurd rfl late
  · intro i worker found fresh now
    rcases either found with old | ⟨rfl,rfl⟩
    · exact orderly.newest i worker old fresh now
    · exact reads
  · intro i worker sockfd connection found serving
    rcases either found with old | ⟨rfl,rfl⟩
    · exact orderly.kept i worker sockfd connection old serving
    · cases serving

theorem orderly_starts (orderly : Orderly s) (found : s.workers[w]? = some worker) (fresh : worker.stage = .created)
    (timely : worker.born = s.returns) : Orderly {s with workers := s.workers.set w (began s worker)} := by
  have reads := orderly.newest w worker found fresh timely
  obtain ⟨own,_,born⟩ := orderly.owner w worker found
  refine ⟨?_,?_,?_,?_,orderly.creating,?_,orderly.current⟩
  · simpa [past] using orderly.count
  · intro i other known
    rcases set_found known with ⟨rfl,rfl⟩ | ⟨_,old⟩
    · exact ⟨own,reads,born⟩
    · exact orderly.owner i other old
  · intro i other known late
    rcases set_found known with ⟨rfl,rfl⟩ | ⟨_,old⟩
    · exact absurd timely late
    · exact orderly.overtaken i other old late
  · intro i other known created now
    rcases set_found known with ⟨rfl,rfl⟩ | ⟨_,old⟩
    · cases created
    · exact orderly.newest i other old created now
  · intro i other sockfd connection known serving
    rcases set_found known with ⟨rfl,rfl⟩ | ⟨_,old⟩
    · cases serving
      exact reads
    · exact orderly.kept i other sockfd connection old serving

theorem orderly_finishes (orderly : Orderly s) (found : s.workers[w]? = some worker)
    (serving : worker.stage = .serving sockfd connection) :
    Orderly {s with
      opened := closed s.opened sockfd,workers := s.workers.set w {worker with stage := .ended connection}} := by
  have open_ := orderly.kept w worker sockfd connection found serving
  obtain ⟨own,takes,born⟩ := orderly.owner w worker found
  have older := worker_past orderly found
  refine ⟨?_,?_,?_,?_,?_,?_,fun k here => orderly.current k (bind_of_closed here)⟩
  · simpa [past] using orderly.count
  · intro i other known
    rcases set_found known with ⟨rfl,rfl⟩ | ⟨_,old⟩
    · refine ⟨own,?_,born⟩
      simpa [Worker.takes,serving] using takes
    · exact orderly.owner i other old
  · intro i other known late
    rcases set_found known with ⟨rfl,rfl⟩ | ⟨_,old⟩
    · exact orderly.overtaken i worker found late
    · exact orderly.overtaken i other old late
  · intro i other known created now
    rcases set_found known with ⟨rfl,rfl⟩ | ⟨different,old⟩
    · cases created
    · exact bind_closed open_ (orderly.newest i other old created now) different
  · intro create
    obtain ⟨some_,reads⟩ := orderly.creating create
    refine ⟨some_,bind_closed open_ reads ?_⟩
    have inside : w < s.accepted - 1 := by simpa [past,show s.pc = .create from create] using older
    exact Ne.symm (Nat.ne_of_lt inside)
  · intro i other fd served known being
    rcases set_found known with ⟨rfl,rfl⟩ | ⟨different,old⟩
    · cases being
    · exact bind_closed open_ (orderly.kept i other fd served old being) different

theorem orderly_preserved (orderly : Orderly s) (timely : Timely s action) (stepped : Stepped s action next) :
    Orderly next := by
  cases stepped with
  | acceptFails here => exact orderly_acceptFails orderly here
  | accepts here free => exact orderly_accepts orderly here free
  | creates here => exact orderly_creates orderly here
  | createFails here => cases timely
  | starts found fresh => exact orderly_starts orderly found fresh (timely _ found)
  | finishes found serving => exact orderly_finishes orderly found serving

theorem takes_range (orderly : Orderly s) : s.workers.map Worker.takes = (List.range (past s)).map some := by
  apply List.ext_getElem?
  intro i
  rw [List.getElem?_map,List.getElem?_map]
  by_cases inside : i < past s
  · have length : i < s.workers.length := by
      rw [orderly.count]
      exact inside
    have found : s.workers[i]? = some s.workers[i] := List.getElem?_eq_getElem length
    rw [found,List.getElem?_range inside]
    exact congrArg some (orderly.owner i _ found).2.1
  · rw [List.getElem?_eq_none (by rw [orderly.count]; omega),List.getElem?_eq_none (by rw [List.length_range]; omega)]
    rfl

theorem orderly_handed (orderly : Orderly s) : Handed s := by
  constructor
  · intro worker member
    obtain ⟨i,found⟩ := List.getElem?_of_mem member
    obtain ⟨own,takes,_⟩ := orderly.owner i worker found
    rw [own,takes]
  · intro k inside
    rw [takes_range orderly,List.count_map_of_injective _ _ (Option.some_injective _)]
    rw [List.Nodup.count List.nodup_range,if_pos (List.mem_range.mpr inside)]

-- A thread that was not created leaves its connection to nobody, and one that
-- begins late serves a later connection or none.
theorem timely_of_handed (orderly : Orderly s) (stepped : Stepped s action next) (handed : Handed next) :
    Timely s action := by
  cases stepped with
  | createFails here =>
    have positive := (orderly.creating here).1
    have once := handed.once (s.accepted - 1) (by simp only [past,reduceCtorEq,if_false]; omega)
    have nobody : (s.workers.map Worker.takes).count (some (s.accepted - 1)) = 0 := by
      rw [takes_range orderly,List.count_map_of_injective _ _ (Option.some_injective _)]
      apply List.count_eq_zero_of_not_mem
      rw [List.mem_range,past,if_pos here]
      exact Nat.lt_irrefl _
    rw [nobody] at once
    cases once
  | starts found fresh =>
    rename_i w worker
    intro other same
    cases found.symm.trans same
    by_contra late
    have length : w < s.workers.length := (List.getElem?_eq_some_iff.mp found).1
    have serves := handed.own (began s worker) (List.mem_set length _)
    have own := (orderly.owner w worker found).1
    have serves : s.clientFd.bind s.opened = some worker.own := serves
    rcases orderly.overtaken w worker found late with gone | older
    · rw [gone] at serves
      cases serves
    · have newest := orderly.current worker.own serves
      omega
  | creates here => rfl
  | acceptFails here => trivial
  | accepts here free => trivial
  | finishes found serving => trivial

theorem handed_exact (ran : run step initial actions = some s) :
    Always step Handed initial actions ↔ Every step Timely initial actions := by
  have keeps : ∀ s action next, Orderly s → Timely s action → step s action = some next → Orderly next :=
    fun s action next orderly timely moved => orderly_preserved orderly timely (step_sound moved)
  apply always_iff_every keeps _ initial_orderly (orderly_handed initial_orderly) ran
  intro s action next orderly _ moved
  have stepped := step_sound moved
  constructor
  · exact timely_of_handed orderly stepped
  · intro timely
    exact orderly_handed (orderly_preserved orderly timely stepped)

def overwritten : List Action :=
  [.accept (some 5),.create true,.accept (some 6),.create true,.start 0,.start 1]

theorem handed_exact_overwritten :
    Always step Handed initial overwritten ↔ Every step Timely initial overwritten := by
  have ends : (run step initial overwritten).isSome := by decide +kernel
  obtain ⟨s,ran⟩ := Option.isSome_iff_exists.mp ends
  exact handed_exact ran

theorem connection_served_twice :
    (run step initial overwritten).map (fun s => s.workers.map Worker.takes) = some [some 1,some 1] ∧
    ¬ Always step Handed initial overwritten := by
  have served : (run step initial overwritten).map (fun s => s.workers.map Worker.takes) = some [some 1,some 1] := by
    decide +kernel
  refine ⟨served,?_⟩
  intro always
  obtain ⟨s,ran,takes⟩ := Option.map_eq_some_iff.mp served
  have handed := always overwritten.length s (by rw [List.take_length]; exact ran)
  have accepted : (run step initial overwritten).map past = some 2 := by decide +kernel
  rw [ran] at accepted
  have once := handed.once 0 (by rw [Option.some.inj accepted]; decide)
  rw [takes] at once
  exact absurd once (by decide)

end NetworkEx.WorkerHandoff
