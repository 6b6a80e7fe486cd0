import Mathlib.Algebra.Order.BigOperators.Group.Finset
import NetworkEx.ParallelSum

namespace NetworkEx.ParallelFinish
open TransitionRuns ParallelSum

def Own : Action → Prop
  | .spurious _ => False
  | _ => True

def Stuck (s : State) : Prop := ∀ action, Own action → step s action = none

def mainLeft : Main → Nat
  | .setting i => 2 * (THREAD_NUM - i) + (ARRAY_SIZE + 1 + THREAD_NUM)
  | .creating i => 2 * (THREAD_NUM - i) - 1 + (ARRAY_SIZE + 1 + THREAD_NUM)
  | .filling i => ARRAY_SIZE - i + (1 + THREAD_NUM)
  | .broadcasting => 1 + THREAD_NUM
  | .joining i _ => THREAD_NUM - i
  | .printed _ => 0

def workerLeft : Worker → Nat
  | .absent => 33
  | .started => 32
  | .copied _ => 31
  | .locked _ => 30
  | .waiting _ => 29
  | .woken _ => 28
  | .resumed _ => 27
  | .summing _ i _ => 25 - i + 1
  | .done => 0

def left (s : State) : Nat := mainLeft s.main + ∑ k ∈ Finset.range THREAD_NUM, workerLeft (s.workers k)

def InRange : Main → Prop
  | .setting i | .creating i | .joining i _ => i < THREAD_NUM
  | .filling i => i < ARRAY_SIZE
  | .broadcasting | .printed _ => True

def created : Main → Nat
  | .setting i | .creating i => i
  | _ => THREAD_NUM

def joined : Main → Nat
  | .joining i _ => i
  | .printed _ => THREAD_NUM
  | _ => 0

def Holds : Worker → Prop
  | .locked _ | .resumed _ => True
  | _ => False

structure Staffed (s : State) : Prop where
  main : InRange s.main
  lock : ∀ k, s.lock = some k → Holds (s.workers k)
  created : ∀ k, s.workers k ≠ .absent ↔ k < created s.main
  joined : ∀ k < joined s.main, s.workers k = .done

theorem creating_absent (staffed : Staffed s) (here : s.main = .creating i) : s.workers i = .absent := by
  by_contra some_
  have below := (staffed.created i).mp some_
  rw [here] at below
  exact Nat.lt_irrefl i below

theorem created_le (range : InRange main) : created main ≤ THREAD_NUM := by
  cases main with
  | setting i | creating i => exact Nat.le_of_lt range
  | filling | broadcasting | joining | printed => exact Nat.le_refl _

theorem left_goes (staffed : Staffed s) (there : s.workers k ≠ .absent) (less : workerLeft worker < workerLeft (s.workers k)) :
    left {goes s k worker with lock := lock,sumArray := sumArray} < left s := by
  have inside : k < THREAD_NUM := Nat.lt_of_lt_of_le ((staffed.created k).mp there) (created_le staffed.main)
  refine Nat.add_lt_add_left (Finset.sum_lt_sum ?_ ⟨k,Finset.mem_range.mpr inside,by simpa [goes] using less⟩) _
  intro u _
  by_cases same : u = k
  · subst same
    simpa [goes] using Nat.le_of_lt less
  · simp [goes,same]

theorem left_main (less : mainLeft next.main < mainLeft s.main)
    (workers : ∀ k, workerLeft (next.workers k) ≤ workerLeft (s.workers k)) : left next < left s :=
  Nat.add_lt_add_of_lt_of_le less (Finset.sum_le_sum fun k _ => workers k)

theorem wake_left (worker : Worker) : workerLeft (wake worker) ≤ workerLeft worker := by
  cases worker <;> simp [wake,workerLeft]

theorem main_drops (staffed : Staffed s) (stepped : Stepped s .main next) : left next < left s := by
  have range := staffed.main
  cases stepped with
  | sets here =>
    rename_i i
    rw [here] at range
    have inside : i < THREAD_NUM := range
    refine left_main ?_ fun _ => Nat.le_refl _
    rw [here]
    simp only [mainLeft]
    omega
  | creates here =>
    rename_i i
    rw [here] at range
    have inside : i < THREAD_NUM := range
    refine left_main ?_ ?_
    · rw [here]
      show mainLeft (if i + 1 < THREAD_NUM then .setting (i + 1) else .filling 0) < mainLeft (.creating i)
      split <;> simp only [mainLeft] <;> omega
    · intro k
      by_cases same : k = i
      · subst same
        have fresh := creating_absent staffed here
        simp [goes,fresh,workerLeft]
      · simp [goes,same]
  | fills here =>
    rename_i i
    rw [here] at range
    have inside : i < ARRAY_SIZE := range
    refine left_main ?_ fun _ => Nat.le_refl _
    rw [here]
    show mainLeft (if i + 1 < ARRAY_SIZE then .filling (i + 1) else .broadcasting) < mainLeft (.filling i)
    split <;> simp only [mainLeft] <;> omega
  | broadcasts here =>
    refine left_main ?_ fun k => wake_left (s.workers k)
    rw [here]
    simp only [mainLeft]
    omega
  | joins here done_ =>
    rename_i i sum
    rw [here] at range
    have inside : i < THREAD_NUM := range
    refine left_main ?_ fun _ => Nat.le_refl _
    rw [here]
    show mainLeft (if i + 1 < THREAD_NUM then .joining (i + 1) _ else .printed _) < mainLeft (.joining i sum)
    split <;> simp only [mainLeft] <;> omega

theorem left_drops (staffed : Staffed s) (stepped : Stepped s action next) : left next < left s := by
  cases stepped with
  | sets here => exact main_drops staffed (.sets here)
  | creates here => exact main_drops staffed (.creates here)
  | fills here => exact main_drops staffed (.fills here)
  | broadcasts here => exact main_drops staffed (.broadcasts here)
  | joins here done_ => exact main_drops staffed (.joins here done_)
  | copies here | locks here | waits here | relocks here | unlocks here | wakes here =>
    exact left_goes staffed (by simp [here]) (by simp [here,workerLeft])
  | adds here more => exact left_goes staffed (by simp [here]) (by simp only [here,workerLeft]; omega)
  | stores here whole => exact left_goes staffed (by simp [here]) (by simp [here,workerLeft])

end NetworkEx.ParallelFinish
