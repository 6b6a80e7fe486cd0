import Mathlib.Algebra.BigOperators.Group.Finset.Basic
import Mathlib.Data.BitVec
import Mathlib.Logic.Function.Basic
import NetworkEx.TransitionRuns

namespace NetworkEx.ParallelSum
open TransitionRuns

def ARRAY_SIZE : Nat := 100
def THREAD_NUM : Nat := 4

-- The pointer is an offset into what malloc gave.
structure DataInfo where
  dPoint : Nat
  idx : Nat
  deriving DecidableEq

-- Where main stands in its three loops, and at the end the sum it prints.
inductive Main where
  | setting (i : Nat)
  | creating (i : Nat)
  | filling (i : Nat)
  | broadcasting
  | joining (i : Nat) (sum : BitVec 32)
  | printed (sum : BitVec 32)
  deriving DecidableEq

-- Where a thread stands in t_func, with its own d_info, i and sum.
inductive Worker where
  | absent
  | started
  | copied (dInfo : DataInfo)
  | locked (dInfo : DataInfo)
  | waiting (dInfo : DataInfo)
  | woken (dInfo : DataInfo)
  | resumed (dInfo : DataInfo)
  | summing (dInfo : DataInfo) (i : Nat) (sum : BitVec 32)
  | done
  deriving DecidableEq

-- `data` is all that malloc gave; data_array moves over it.
structure State where
  main : Main
  lock : Option Nat
  dInfo : DataInfo
  dataArray : Nat
  data : Nat → BitVec 32
  sumArray : Nat → BitVec 32
  workers : Nat → Worker

def initial (data : Nat → BitVec 32) (dInfo : DataInfo) : State :=
  ⟨.setting 0,none,dInfo,0,data,fun _ => 0,fun _ => .absent⟩

inductive Action where
  | main
  | worker (k : Nat)
  | spurious (k : Nat)
  deriving DecidableEq

def goes (s : State) (k : Nat) (worker : Worker) : State := {s with workers := Function.update s.workers k worker}

def wake : Worker → Worker
  | .waiting dInfo => .woken dInfo
  | worker => worker

def stepMain (s : State) : Option State :=
  match s.main with
  | .setting i => some {s with main := .creating i,dInfo := ⟨s.dataArray,i⟩}
  | .creating i =>
    some {goes s i .started with main := if i + 1 < THREAD_NUM then .setting (i + 1) else .filling 0}
  | .filling i =>
    some {s with
      main := if i + 1 < ARRAY_SIZE then .filling (i + 1) else .broadcasting
      data := Function.update s.data s.dataArray (BitVec.ofNat 32 i)
      dataArray := s.dataArray + 1}
  | .broadcasting => some {s with main := .joining 0 0,workers := fun k => wake (s.workers k)}
  | .joining i sum =>
    if s.workers i = .done then
      let sum := sum + s.sumArray i
      some {s with main := if i + 1 < THREAD_NUM then .joining (i + 1) sum else .printed sum}
    else none
  | .printed _ => none

def element (dInfo : DataInfo) (i : Nat) : Nat := dInfo.dPoint + (dInfo.idx * 25 + i)

-- A wait gives the lock up, and a thread that has been woken takes it again.
def stepWorker (s : State) (k : Nat) : Option State :=
  match s.workers k with
  | .started => some (goes s k (.copied s.dInfo))
  | .copied dInfo => if s.lock = none then some {goes s k (.locked dInfo) with lock := some k} else none
  | .locked dInfo => some {goes s k (.waiting dInfo) with lock := none}
  | .woken dInfo => if s.lock = none then some {goes s k (.resumed dInfo) with lock := some k} else none
  | .resumed dInfo => some {goes s k (.summing dInfo 0 0) with lock := none}
  | .summing dInfo i sum =>
    if i < 25 then some (goes s k (.summing dInfo (i + 1) (sum + s.data (element dInfo i))))
    else some {goes s k .done with sumArray := Function.update s.sumArray dInfo.idx sum}
  | .absent | .waiting _ | .done => none

def step (s : State) : Action → Option State
  | .main => stepMain s
  | .worker k => stepWorker s k
  | .spurious k =>
    match s.workers k with
    | .waiting dInfo => some (goes s k (.woken dInfo))
    | _ => none

def passed : Main → Bool
  | .joining _ _ | .printed _ => true
  | _ => false

def total (s : State) : BitVec 32 := ∑ j ∈ Finset.range ARRAY_SIZE, s.data j

structure Good (s : State) : Prop where
  sum : ∀ sum, s.main = .printed sum → sum = total s
  woken : passed s.main = true → ∀ k dInfo, s.workers k ≠ .waiting dInfo

-- A thread copies d_info while it is still its own, waits before the broadcast,
-- and reads an element when main's value is in it.
def InTime (s : State) (k : Nat) : Worker → Prop
  | .started => s.dInfo.idx = k
  | .locked _ => passed s.main = false
  | .summing dInfo i _ => i < 25 → s.data (element dInfo i) = BitVec.ofNat 32 (element dInfo i)
  | .absent | .copied _ | .waiting _ | .woken _ | .resumed _ | .done => True

def Timely (s : State) : Action → Prop
  | .worker k => InTime s k (s.workers k)
  | .main | .spurious _ => True

instance (s : State) (k : Nat) : (worker : Worker) → Decidable (InTime s k worker)
  | .started => inferInstanceAs (Decidable (_ = _))
  | .locked _ => inferInstanceAs (Decidable (_ = _))
  | .summing _ _ _ => inferInstanceAs (Decidable (_ → _))
  | .absent | .copied _ | .waiting _ | .woken _ | .resumed _ | .done => .isTrue trivial

instance (s : State) : (action : Action) → Decidable (Timely s action)
  | .worker k => inferInstanceAs (Decidable (InTime s k (s.workers k)))
  | .main | .spurious _ => .isTrue trivial

inductive Stepped (s : State) : Action → State → Prop where
  | sets (here : s.main = .setting i) : Stepped s .main {s with main := .creating i,dInfo := ⟨s.dataArray,i⟩}
  | creates (here : s.main = .creating i) :
      Stepped s .main
        {goes s i .started with main := if i + 1 < THREAD_NUM then .setting (i + 1) else .filling 0}
  | fills (here : s.main = .filling i) :
      Stepped s .main
        {s with
          main := if i + 1 < ARRAY_SIZE then .filling (i + 1) else .broadcasting
          data := Function.update s.data s.dataArray (BitVec.ofNat 32 i)
          dataArray := s.dataArray + 1}
  | broadcasts (here : s.main = .broadcasting) :
      Stepped s .main {s with main := .joining 0 0,workers := fun k => wake (s.workers k)}
  | joins (here : s.main = .joining i sum) (ended : s.workers i = .done) :
      Stepped s .main
        {s with
          main := if i + 1 < THREAD_NUM then .joining (i + 1) (sum + s.sumArray i) else .printed (sum + s.sumArray i)}
  | copies (here : s.workers k = .started) : Stepped s (.worker k) (goes s k (.copied s.dInfo))
  | locks (here : s.workers k = .copied dInfo) :
      Stepped s (.worker k) {goes s k (.locked dInfo) with lock := some k}
  | waits (here : s.workers k = .locked dInfo) :
      Stepped s (.worker k) {goes s k (.waiting dInfo) with lock := none}
  | relocks (here : s.workers k = .woken dInfo) :
      Stepped s (.worker k) {goes s k (.resumed dInfo) with lock := some k}
  | unlocks (here : s.workers k = .resumed dInfo) :
      Stepped s (.worker k) {goes s k (.summing dInfo 0 0) with lock := none}
  | adds (here : s.workers k = .summing dInfo i sum) (more : i < 25) :
      Stepped s (.worker k) (goes s k (.summing dInfo (i + 1) (sum + s.data (element dInfo i))))
  | stores (here : s.workers k = .summing dInfo i sum) (whole : ¬ i < 25) :
      Stepped s (.worker k) {goes s k .done with sumArray := Function.update s.sumArray dInfo.idx sum}
  | wakes (here : s.workers k = .waiting dInfo) : Stepped s (.spurious k) (goes s k (.woken dInfo))

theorem stepMain_sound (ran : stepMain s = some next) : Stepped s .main next := by
  unfold stepMain at ran
  split at ran
  · rename_i i here
    cases ran
    exact .sets here
  · rename_i i here
    cases ran
    exact .creates here
  · rename_i i here
    cases ran
    exact .fills here
  · rename_i here
    cases ran
    exact .broadcasts here
  · rename_i i sum here
    obtain ⟨ended,rfl⟩ := Option.ite_none_right_eq_some.mp ran |>.imp_right Option.some.inj
    exact .joins here ended
  · cases ran

theorem stepWorker_sound (ran : stepWorker s k = some next) : Stepped s (.worker k) next := by
  unfold stepWorker at ran
  split at ran
  · rename_i here
    cases ran
    exact .copies here
  · rename_i dInfo here
    obtain ⟨_,rfl⟩ := Option.ite_none_right_eq_some.mp ran |>.imp_right Option.some.inj
    exact .locks here
  · rename_i dInfo here
    cases ran
    exact .waits here
  · rename_i dInfo here
    obtain ⟨_,rfl⟩ := Option.ite_none_right_eq_some.mp ran |>.imp_right Option.some.inj
    exact .relocks here
  · rename_i dInfo here
    cases ran
    exact .unlocks here
  · rename_i dInfo i sum here
    split at ran
    · rename_i more
      cases ran
      exact .adds here more
    · rename_i whole
      cases ran
      exact .stores here whole
  · cases ran
  · cases ran
  · cases ran

theorem step_sound (ran : step s action = some next) : Stepped s action next := by
  cases action with
  | main => exact stepMain_sound ran
  | worker k => exact stepWorker_sound ran
  | spurious k =>
    simp only [step] at ran
    split at ran
    · rename_i dInfo here
      cases ran
      exact .wakes here
    · cases ran

section Blocks
variable {M : Type u} [AddCommMonoid M]

theorem sum_blocks (f : Nat → M) (blocks width : Nat) :
    ∑ k ∈ Finset.range blocks, ∑ i ∈ Finset.range width, f (k * width + i) = ∑ j ∈ Finset.range (blocks * width), f j := by
  induction blocks with
  | zero => simp
  | succ blocks ih => rw [Finset.sum_range_succ,ih,Nat.succ_mul,Finset.sum_range_add]

end Blocks

def part (k n : Nat) : BitVec 32 := ∑ i ∈ Finset.range n, BitVec.ofNat 32 (k * 25 + i)

def parts (n : Nat) : BitVec 32 := ∑ k ∈ Finset.range n, part k 25

def own (k : Nat) : DataInfo := ⟨0,k⟩

def Fills (dataArray : Nat) (dInfo : DataInfo) : Main → Prop
  | .setting i => dataArray = 0 ∧ i < THREAD_NUM
  | .creating i => dataArray = 0 ∧ i < THREAD_NUM ∧ dInfo = own i
  | .filling i => dataArray = i ∧ i < ARRAY_SIZE
  | .broadcasting => dataArray = ARRAY_SIZE
  | .joining i sum => dataArray = ARRAY_SIZE ∧ i < THREAD_NUM ∧ sum = parts i
  | .printed sum => dataArray = ARRAY_SIZE ∧ sum = parts THREAD_NUM

def Sums (dPoint : Nat) (kept : BitVec 32) (k : Nat) : Worker → Prop
  | .absent => True
  | .started => dPoint = 0
  | .copied dInfo | .locked dInfo | .waiting dInfo | .woken dInfo | .resumed dInfo => dInfo = own k
  | .summing dInfo i sum => dInfo = own k ∧ i ≤ 25 ∧ sum = part k i
  | .done => kept = part k 25

def NoneWaits (s : State) : Prop := passed s.main = true → ∀ k dInfo, s.workers k ≠ .waiting dInfo

structure Orderly (s : State) : Prop where
  filled : ∀ j < s.dataArray, s.data j = BitVec.ofNat 32 j
  main : Fills s.dataArray s.dInfo s.main
  workers : ∀ k, Sums s.dInfo.dPoint (s.sumArray k) k (s.workers k)
  woken : NoneWaits s

theorem part_succ (k n : Nat) : part k (n + 1) = part k n + BitVec.ofNat 32 (k * 25 + n) := Finset.sum_range_succ _ _

theorem parts_succ (n : Nat) : parts (n + 1) = parts n + part n 25 := Finset.sum_range_succ _ _

theorem total_filled (filled : ∀ j < ARRAY_SIZE, s.data j = BitVec.ofNat 32 j) : total s = parts THREAD_NUM := by
  have whole : parts THREAD_NUM = ∑ j ∈ Finset.range (THREAD_NUM * 25), BitVec.ofNat 32 j := sum_blocks _ _ _
  rw [total,whole]
  exact Finset.sum_congr rfl fun j member => filled j (Finset.mem_range.mp member)

theorem orderly_good (orderly : Orderly s) : Good s := by
  refine ⟨?_,orderly.woken⟩
  intro sum here
  have printed := orderly.main
  rw [here] at printed
  obtain ⟨full,rfl⟩ := printed
  exact (total_filled fun j inside => orderly.filled j (full ▸ inside)).symm

theorem initial_orderly (data : Nat → BitVec 32) (dInfo : DataInfo) : Orderly (initial data dInfo) :=
  ⟨nofun,⟨rfl,by decide⟩,fun _ => trivial,nofun⟩

-- A thread that moves on leaves main and the others where they are.
theorem orderly_goes (orderly : Orderly s) (sums : Sums s.dInfo.dPoint (sumArray k) k worker)
    (others : ∀ u, u ≠ k → sumArray u = s.sumArray u)
    (waits : passed s.main = true → ∀ dInfo, worker ≠ .waiting dInfo) (lock : Option Nat) :
    Orderly {goes s k worker with lock := lock,sumArray := sumArray} := by
  refine ⟨orderly.filled,orderly.main,?_,?_⟩
  · intro u
    by_cases same : u = k
    · subst same
      simpa [goes] using sums
    · simpa [goes,same,others u same] using orderly.workers u
  · intro after u
    by_cases same : u = k
    · subst same
      simpa [goes] using waits after
    · simpa [goes,same] using orderly.woken after u

theorem orderly_moves (orderly : Orderly s) (worker : Worker) (sums : Sums s.dInfo.dPoint (s.sumArray k) k worker)
    (waits : passed s.main = true → ∀ dInfo, worker ≠ .waiting dInfo) (lock : Option Nat) :
    Orderly {goes s k worker with lock := lock} :=
  orderly_goes orderly sums (fun _ _ => rfl) waits lock

theorem worker_orderly (orderly : Orderly s) (timely : Timely s (.worker k)) (stepped : Stepped s (.worker k) next) :
    Orderly next := by
  have sums := orderly.workers k
  simp only [Timely] at timely
  cases stepped with
  | copies here =>
    rw [here] at sums timely
    have points : s.dInfo.dPoint = 0 := sums
    have index : s.dInfo.idx = k := timely
    have mine : s.dInfo = own k := by rw [own,← points,← index]
    exact orderly_moves orderly (.copied s.dInfo) mine (fun _ _ => nofun) s.lock
  | locks here =>
    rename_i dInfo
    rw [here] at sums
    exact orderly_moves orderly (.locked dInfo) sums (fun _ _ => nofun) (some k)
  | waits here =>
    rename_i dInfo
    rw [here] at sums timely
    have before : passed s.main = false := timely
    refine orderly_moves orderly (.waiting dInfo) sums ?_ none
    intro after
    cases before.symm.trans after
  | relocks here =>
    rename_i dInfo
    rw [here] at sums
    exact orderly_moves orderly (.resumed dInfo) sums (fun _ _ => nofun) (some k)
  | unlocks here =>
    rename_i dInfo
    rw [here] at sums
    have begun : Sums s.dInfo.dPoint (s.sumArray k) k (.summing dInfo 0 0) := ⟨sums,Nat.zero_le _,rfl⟩
    exact orderly_moves orderly (.summing dInfo 0 0) begun (fun _ _ => nofun) none
  | adds here more =>
    rename_i dInfo i sum
    rw [here] at sums timely
    obtain ⟨rfl,_,rfl⟩ := sums
    have value : s.data (element (own k) i) = BitVec.ofNat 32 (k * 25 + i) := by
      rw [timely more,element,own,Nat.zero_add]
    have added : Sums s.dInfo.dPoint (s.sumArray k) k (.summing (own k) (i + 1) (part k i + s.data (element (own k) i))) :=
      ⟨rfl,more,by rw [value,part_succ]⟩
    exact orderly_moves orderly _ added (fun _ _ => nofun) s.lock
  | stores here whole =>
    rename_i dInfo i sum
    rw [here] at sums
    obtain ⟨rfl,most,rfl⟩ := sums
    have all : i = 25 := by omega
    subst all
    have ended : Sums s.dInfo.dPoint (Function.update s.sumArray k (part k 25) k) k .done := Function.update_self ..
    exact orderly_goes orderly ended (fun u other => Function.update_of_ne other ..) (fun _ _ => nofun) s.lock

theorem main_orderly (orderly : Orderly s) (stepped : Stepped s .main next) : Orderly next := by
  have main := orderly.main
  cases stepped with
  | sets here =>
    rename_i i
    rw [here] at main
    obtain ⟨empty,inside⟩ := main
    refine ⟨orderly.filled,⟨empty,inside,by rw [empty]; rfl⟩,?_,nofun⟩
    intro k
    have sums := orderly.workers k
    cases place : s.workers k with
    | started => exact empty
    | _ => rwa [place] at sums
  | creates here =>
    rename_i i
    rw [here] at main
    obtain ⟨empty,inside,mine⟩ := main
    refine ⟨orderly.filled,?_,?_,?_⟩
    · show Fills s.dataArray s.dInfo (if i + 1 < THREAD_NUM then .setting (i + 1) else .filling 0)
      split
      · rename_i more
        exact ⟨empty,more⟩
      · exact ⟨empty,by decide⟩
    · intro k
      by_cases same : k = i
      · subst same
        simp [goes,Sums,mine,own]
      · simpa [goes,same] using orderly.workers k
    · intro after
      simp only at after
      split at after <;> cases after
  | fills here =>
    rename_i i
    rw [here] at main
    obtain ⟨here_,inside⟩ := main
    subst here_
    refine ⟨?_,?_,orderly.workers,?_⟩
    · intro j below
      by_cases last : j = s.dataArray
      · subst last
        exact Function.update_self ..
      · have earlier : j < s.dataArray := by
          have below : j < s.dataArray + 1 := below
          omega
        exact (Function.update_of_ne last ..).trans (orderly.filled j earlier)
    · show Fills (s.dataArray + 1) s.dInfo (if s.dataArray + 1 < ARRAY_SIZE then .filling (s.dataArray + 1) else .broadcasting)
      split
      · rename_i more
        exact ⟨rfl,more⟩
      · show s.dataArray + 1 = ARRAY_SIZE
        omega
    · intro after
      simp only at after
      split at after <;> cases after
  | broadcasts here =>
    rw [here] at main
    refine ⟨orderly.filled,⟨main,by decide,rfl⟩,?_,?_⟩
    · intro k
      have sums := orderly.workers k
      show Sums _ _ k (wake (s.workers k))
      cases place : s.workers k <;> rw [place] at sums <;> exact sums
    · intro _ k dInfo
      show wake (s.workers k) ≠ _
      cases s.workers k <;> exact nofun
  | joins here ended =>
    rename_i i sum
    rw [here] at main
    obtain ⟨full,inside,rfl⟩ := main
    have kept := orderly.workers i
    rw [ended] at kept
    have added : parts i + s.sumArray i = parts (i + 1) := by
      rw [parts_succ]
      exact congrArg (parts i + ·) kept
    have after : passed s.main = true := by rw [here]; rfl
    refine ⟨orderly.filled,?_,orderly.workers,fun _ => orderly.woken after⟩
    simp only [added]
    split
    · rename_i more
      exact ⟨full,more,rfl⟩
    · have last : i + 1 = THREAD_NUM := by omega
      exact ⟨full,by rw [last]⟩

theorem orderly_preserved (orderly : Orderly s) (timely : Timely s action) (stepped : Stepped s action next) :
    Orderly next := by
  cases action with
  | main => exact main_orderly orderly stepped
  | worker k => exact worker_orderly orderly timely stepped
  | spurious k =>
    cases stepped with
    | wakes here =>
      rename_i dInfo
      have sums := orderly.workers k
      rw [here] at sums
      exact orderly_moves orderly (.woken dInfo) sums (fun _ _ => nofun) s.lock

theorem timely_sums (all : Every step Timely (initial data dInfo) actions) : Always step Good (initial data dInfo) actions :=
  always_of_preserves (fun _ _ _ orderly timely ran => orderly_preserved orderly timely (step_sound ran))
    (fun _ orderly => orderly_good orderly) (initial_orderly data dInfo) all

def eachWorker (actions : Nat → List Action) : List Action := (List.range THREAD_NUM).flatMap actions

def timelyRun : List Action :=
  eachWorker (fun k => List.replicate 2 .main ++ List.replicate 3 (.worker k)) ++ List.replicate 101 .main ++
    eachWorker (fun k => List.replicate 28 (.worker k)) ++ List.replicate 4 .main
def lateCopies : List Action :=
  List.replicate 8 .main ++ eachWorker (fun k => List.replicate 3 (.worker k)) ++ List.replicate 101 .main ++
    eachWorker (fun k => List.replicate 28 (.worker k)) ++ List.replicate 4 .main
def lateWait : List Action := List.replicate 109 .main ++ List.replicate 3 (.worker 0)

def cleared : State := initial (fun _ => 0) ⟨0,0⟩

theorem timely_sums_run : Always step Good cleared timelyRun := timely_sums (by decide +kernel)

theorem index_repeated_and_broadcast_missed :
    (run step cleared lateCopies).map (fun s => (s.main,total s)) = some (.printed 2175,4950) ∧
    ¬ Always step Good cleared lateCopies ∧
    (run step cleared lateWait).map (fun s => (passed s.main,s.workers 0)) = some (true,.waiting (own 3)) ∧
    ¬ Always step Good cleared lateWait := by
  have repeated : (run step cleared lateCopies).map (fun s => (s.main,total s)) = some (.printed 2175,4950) := by
    decide +kernel
  have missed : (run step cleared lateWait).map (fun s => (passed s.main,s.workers 0)) = some (true,.waiting (own 3)) := by
    decide +kernel
  refine ⟨repeated,?_,missed,?_⟩
  · intro always
    obtain ⟨s,good,same⟩ := always_seen always repeated
    obtain ⟨printed,sum⟩ := Prod.mk.inj same
    have wrong := good.sum _ printed
    rw [sum] at wrong
    exact absurd wrong (by decide)
  · intro always
    obtain ⟨s,good,same⟩ := always_seen always missed
    obtain ⟨after,waits⟩ := Prod.mk.inj same
    exact good.woken after 0 (own 3) waits

end NetworkEx.ParallelSum
