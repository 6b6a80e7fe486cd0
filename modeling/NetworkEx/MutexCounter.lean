import Mathlib.Logic.Function.Basic
import NetworkEx.TransitionRuns

namespace NetworkEx.MutexCounter
open TransitionRuns

variable {τ : Type u}

-- Where a thread is in t_func's loop, with its tmp as far as it will be used.
inductive Stage where
  | outside
  | locked
  | read (tmp : BitVec 32)
  | incremented (tmp : BitVec 32)
  | written
  deriving DecidableEq

def Stage.inside : Stage → Bool
  | .outside => false
  | _ => true

-- `increments` and `writes` are history. A thread that main has not created yet
-- is one that takes no step.
structure State (τ : Type u) where
  lock : Option τ
  count : BitVec 32
  stage : τ → Stage
  increments : Nat
  writes : Nat

def initial (count : BitVec 32) : State τ := ⟨none,count,fun _ => .outside,0,0⟩

inductive Action (τ : Type u) where
  | lock (t : τ)
  | read (t : τ)
  | increment (t : τ)
  | write (t : τ)
  | unlock (t : τ)

def goes [DecidableEq τ] (s : State τ) (t : τ) (stage : Stage) : State τ := {s with stage := Function.update s.stage t stage}

def step [DecidableEq τ] (s : State τ) : Action τ → Option (State τ)
  | .lock t =>
    match s.stage t,s.lock with
    | .outside,none => some {goes s t .locked with lock := some t}
    | _,_ => none
  | .read t =>
    match s.stage t with
    | .locked => some (goes s t (.read s.count))
    | _ => none
  | .increment t =>
    match s.stage t with
    | .read tmp => some {goes s t (.incremented (tmp + 1)) with increments := s.increments + 1}
    | _ => none
  | .write t =>
    match s.stage t with
    | .incremented tmp => some {goes s t .written with count := tmp,writes := s.writes + 1}
    | _ => none
  | .unlock t =>
    match s.stage t with
    | .written => some {goes s t .outside with lock := none}
    | _ => none

-- An increment that is not stored yet: only the owner of the lock can have one.
def unstored (s : State τ) : Nat :=
  match s.lock.map s.stage with
  | some (.incremented _) => 1
  | _ => 0

structure Exclusive (count : BitVec 32) (s : State τ) : Prop where
  one : ∀ t u, (s.stage t).inside = true → (s.stage u).inside = true → t = u
  counted : s.count = count + BitVec.ofNat 32 s.writes
  kept : s.increments = s.writes + unstored s

inductive Stepped [DecidableEq τ] (s : State τ) : Action τ → State τ → Prop where
  | locks (here : s.stage t = .outside) (free : s.lock = none) :
      Stepped s (.lock t) {goes s t .locked with lock := some t}
  | reads (here : s.stage t = .locked) : Stepped s (.read t) (goes s t (.read s.count))
  | increments (here : s.stage t = .read tmp) :
      Stepped s (.increment t) {goes s t (.incremented (tmp + 1)) with increments := s.increments + 1}
  | writes (here : s.stage t = .incremented tmp) :
      Stepped s (.write t) {goes s t .written with count := tmp,writes := s.writes + 1}
  | unlocks (here : s.stage t = .written) : Stepped s (.unlock t) {goes s t .outside with lock := none}

theorem step_sound [DecidableEq τ] {s next : State τ} (ran : step s action = some next) : Stepped s action next := by
  cases action with
  | lock t =>
    simp only [step] at ran
    split at ran
    · rename_i here free
      cases ran
      exact .locks here free
    · cases ran
  | read t =>
    simp only [step] at ran
    split at ran
    · rename_i here
      cases ran
      exact .reads here
    · cases ran
  | increment t =>
    simp only [step] at ran
    split at ran
    · rename_i tmp here
      cases ran
      exact .increments here
    · cases ran
  | write t =>
    simp only [step] at ran
    split at ran
    · rename_i tmp here
      cases ran
      exact .writes here
    · cases ran
  | unlock t =>
    simp only [step] at ran
    split at ran
    · rename_i here
      cases ran
      exact .unlocks here
    · cases ran

-- What the owner's place says of the counter: its copy is current, and the one
-- increment that is not stored is its own.
def Holds (s : State τ) : Stage → Prop
  | .outside => False
  | .locked | .written => s.increments = s.writes
  | .read tmp => s.increments = s.writes ∧ tmp = s.count
  | .incremented tmp => s.increments = s.writes + 1 ∧ tmp = s.count + 1

structure Guarded (count : BitVec 32) (s : State τ) : Prop where
  others : ∀ t, s.lock ≠ some t → s.stage t = .outside
  free : s.lock = none → s.increments = s.writes
  owner : ∀ t, s.lock = some t → Holds s (s.stage t)
  counted : s.count = count + BitVec.ofNat 32 s.writes

theorem initial_guarded (count : BitVec 32) : Guarded count (initial count : State τ) :=
  ⟨fun _ _ => rfl,fun _ => rfl,nofun,(BitVec.add_zero count).symm⟩

theorem guarded_owner {s : State τ} (guarded : Guarded count s) (inside : (s.stage t).inside = true) : s.lock = some t := by
  by_contra other
  rw [guarded.others t other] at inside
  cases inside

theorem guarded_exclusive {s : State τ} (guarded : Guarded count s) : Exclusive count s := by
  refine ⟨?_,guarded.counted,?_⟩
  · intro t u one other
    exact Option.some.inj ((guarded_owner guarded one).symm.trans (guarded_owner guarded other))
  · unfold unstored
    cases lock : s.lock with
    | none => exact guarded.free lock
    | some t =>
      have holds := guarded.owner t lock
      rw [Option.map_some]
      cases here : s.stage t with
      | outside => rw [here] at holds; exact holds.elim
      | locked | written => rw [here] at holds; exact holds
      | read tmp | incremented tmp => rw [here] at holds; exact holds.1

theorem guarded_goes [DecidableEq τ] {s next : State τ} (guarded : Guarded count s) (owner : s.lock = some t) (lock : next.lock = some t)
    (stage : next.stage = Function.update s.stage t there) (holds : Holds next there)
    (counted : next.count = count + BitVec.ofNat 32 next.writes) : Guarded count next := by
  refine ⟨?_,?_,?_,counted⟩
  · intro u other
    have different : u ≠ t := by
      rintro rfl
      exact other lock
    rw [stage,Function.update_of_ne different]
    apply guarded.others
    rw [owner]
    exact fun same => different (Option.some.inj same).symm
  · intro free
    rw [lock] at free
    cases free
  · intro u held
    cases lock.symm.trans held
    rw [stage,Function.update_self]
    exact holds

theorem guarded_preserved [DecidableEq τ] {s : State τ} (guarded : Guarded count s) (stepped : Stepped s action next) :
    Guarded count next := by
  cases stepped with
  | locks here free =>
    rename_i t
    refine ⟨?_,fun free => absurd free (Option.some_ne_none t),?_,guarded.counted⟩
    · intro u other
      have different : u ≠ t := fun same => other (by rw [same])
      have stays : Function.update s.stage t .locked u = s.stage u := Function.update_of_ne different _ _
      exact stays.trans (guarded.others u (by simp [free]))
    · intro u held
      cases held
      simp only [goes,Function.update_self]
      exact guarded.free free
  | reads here =>
    rename_i t
    have owner := guarded_owner guarded (t := t) (by rw [here]; rfl)
    have holds := guarded.owner t owner
    rw [here] at holds
    exact guarded_goes guarded owner owner rfl ⟨holds,rfl⟩ guarded.counted
  | increments here =>
    rename_i t tmp
    have owner := guarded_owner guarded (t := t) (by rw [here]; rfl)
    have holds := guarded.owner t owner
    rw [here] at holds
    have stored : s.increments + 1 = s.writes + 1 := by rw [holds.1]
    have copied : tmp + 1 = s.count + 1 := by rw [holds.2]
    exact guarded_goes guarded owner owner rfl ⟨stored,copied⟩ guarded.counted
  | writes here =>
    rename_i t tmp
    have owner := guarded_owner guarded (t := t) (by rw [here]; rfl)
    have holds := guarded.owner t owner
    rw [here] at holds
    have grown : tmp = count + BitVec.ofNat 32 (s.writes + 1) := by
      rw [holds.2,guarded.counted,BitVec.add_assoc,BitVec.ofNat_add]
      rfl
    exact guarded_goes guarded owner owner rfl holds.1 grown
  | unlocks here =>
    rename_i t
    have owner := guarded_owner guarded (t := t) (by rw [here]; rfl)
    have holds := guarded.owner t owner
    rw [here] at holds
    refine ⟨?_,fun _ => holds,fun u held => absurd held (Option.some_ne_none u).symm,guarded.counted⟩
    intro u _
    by_cases same : u = t
    · rw [same]
      exact Function.update_self t _ _
    · have stays : Function.update s.stage t .outside u = s.stage u := Function.update_of_ne same _ _
      refine stays.trans (guarded.others u ?_)
      rw [owner]
      exact fun equal => same (Option.some.inj equal).symm

theorem counter_kept [DecidableEq τ] (count : BitVec 32) (actions : List (Action τ)) :
    Always step (Exclusive count) (initial count) actions := by
  have keeps : ∀ (s : State τ) action next, Guarded count s → step s action = some next → Guarded count next :=
    fun s action next guarded moved => guarded_preserved guarded (step_sound moved)
  intro k s ran
  exact guarded_exclusive (run_invariant keeps (initial_guarded count) ran)

end NetworkEx.MutexCounter
