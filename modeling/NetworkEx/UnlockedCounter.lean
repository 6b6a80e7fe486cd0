import Mathlib.Algebra.Group.Nat.Defs
import NetworkEx.UnlockedCell

namespace NetworkEx.UnlockedCounter
open TransitionRuns UnlockedCell

variable {τ : Type u}

def plus (amount count : BitVec 32) : BitVec 32 := count + amount

theorem plus_iterate (amount start : BitVec 32) (m : Nat) : (plus amount)^[m] start = start + BitVec.ofNat 32 m * amount := by
  induction m with
  | zero => simp
  | succ m ih =>
    rw [Function.iterate_succ_apply',ih,plus,BitVec.add_assoc,BitVec.ofNat_add,BitVec.add_mul,BitVec.one_mul]

-- t_func of count_thread: `printed` is a thread behind its printf, the copy it
-- may hold of *count stands between the load and the store of *count+1.
structure Threads (τ : Type u) where
  memory : State τ (BitVec 32)
  printed : τ → Bool

def created (count : BitVec 32) : Threads τ := ⟨initial count,fun _ => false⟩

inductive Turn (τ : Type u) where
  | print (t : τ)
  | load (t : τ)
  | store (t : τ)
  | mainPrint

def turn [DecidableEq τ] (s : Threads τ) : Turn τ → Option (Threads τ)
  | .print t =>
    if s.printed t ∨ (s.memory.copy t).isSome then none
    else (step (plus 1) s.memory .look).map fun memory => ⟨memory,Function.update s.printed t true⟩
  | .load t =>
    if s.printed t then
      (step (plus 1) s.memory (.load t)).map fun memory => ⟨memory,Function.update s.printed t false⟩
    else none
  | .store t => (step (plus 1) s.memory (.store t)).map fun memory => {s with memory := memory}
  | .mainPrint => (step (plus 1) s.memory .look).map fun memory => {s with memory := memory}

def access : Turn τ → Action τ
  | .print _ | .mainPrint => .look
  | .load t => .load t
  | .store t => .store t

section Threads

variable [DecidableEq τ] {s next : Threads τ}

theorem turn_access (ran : turn s action = some next) : step (plus 1) s.memory (access action) = some next.memory := by
  cases action with
  | print t =>
    simp only [turn,Option.ite_none_left_eq_some,Option.map_eq_some_iff] at ran
    obtain ⟨_,memory,looked,rfl⟩ := ran
    exact looked
  | load t =>
    simp only [turn,Option.ite_none_right_eq_some,Option.map_eq_some_iff] at ran
    obtain ⟨_,memory,loaded,rfl⟩ := ran
    exact loaded
  | store t =>
    simp only [turn,Option.map_eq_some_iff] at ran
    obtain ⟨memory,stored,rfl⟩ := ran
    exact stored
  | mainPrint =>
    simp only [turn,Option.map_eq_some_iff] at ran
    obtain ⟨memory,looked,rfl⟩ := ran
    exact looked

theorem run_access (ran : run turn s actions = some next) : run (step (plus 1)) s.memory (actions.map access) = some next.memory := by
  induction actions generalizing s with
  | nil => cases ran; rfl
  | cons action rest ih =>
    obtain ⟨between,stepped,onward⟩ := run_cons_some ran
    rw [List.map_cons,run_cons,turn_access stepped]
    exact ih onward

def perform : Action τ → List (Turn τ)
  | .look => [.mainPrint]
  | .load t => [.print t,.load t]
  | .store t => [.store t]

-- The same memory but for what was seen of it, and no thread behind its printf.
structure Alike (m : State τ (BitVec 32)) (s : Threads τ) : Prop where
  memory : s.memory = {m with seen := s.memory.seen}
  printed : s.printed = fun _ => false

theorem alike_performs {m : State τ (BitVec 32)} (alike : Alike m s) (ran : step (plus 1) m action = some after) :
    ∃ later, run turn s (perform action) = some later ∧ Alike after later := by
  obtain ⟨memory,printed⟩ := alike
  have copies : s.memory.copy = m.copy := by rw [memory]
  cases action with
  | look =>
    cases ran
    refine ⟨{s with memory := {s.memory with seen := s.memory.seen ++ [s.memory.cell]}},rfl,?_,printed⟩
    rw [memory]
  | load t =>
    obtain ⟨free,rfl⟩ := load_parts ran
    let held := Function.update m.copy t (some ⟨m.cell,m.depth,m.stores⟩)
    refine ⟨⟨{m with copy := held,seen := s.memory.seen ++ [m.cell]},fun _ => false⟩,?_,rfl,rfl⟩
    have idle : Function.update (Function.update (fun _ => false) t true) t false = fun _ : τ => false := by
      rw [Function.update_idem,Function.update_eq_self_iff]
    rw [perform,run_cons,turn,printed,copies,free,memory]
    simp [step,run_cons,turn,free,idle,held]
  | store t =>
    obtain ⟨copy,held,rfl⟩ := store_parts ran
    let stored : State τ (BitVec 32) :=
      ⟨plus 1 copy.value,Function.update m.copy t none,s.memory.seen,copy.depth + 1,m.stores + 1⟩
    refine ⟨⟨stored,fun _ => false⟩,?_,rfl,rfl⟩
    rw [perform,run_cons,turn,step,copies,held,← printed,memory]
    rfl

end Threads

section Counts

variable [DecidableEq τ]

-- What *count can be after so many stores of at least two threads: all but one
-- of the increments can be lost.
theorem count_values {a b : τ} (different : a ≠ b) (start : BitVec 32) (stores : Nat) (v : BitVec 32) :
    (∃ actions, ∃ s : Threads τ, run turn (created start) actions = some s ∧ s.memory.stores = stores ∧ s.memory.cell = v) ↔
      ∃ m, Possible stores m ∧ v = start + BitVec.ofNat 32 m := by
  have counts : ∀ actions (s : Threads τ), run turn (created start) actions = some s → Counted (plus 1) start s.memory :=
    fun _ _ ran => run_counted (run_access ran)
  have performs : ∀ actions (m : State τ (BitVec 32)), (∀ action ∈ actions, Of [a,b] action) →
      run (step (plus 1)) (initial start) actions = some m →
      ∃ others, ∃ s : Threads τ, run turn (created start) others = some s ∧ s.memory.stores = m.stores ∧ s.memory.cell = m.cell := by
    intro actions m parties ran
    have forward : ∀ (m : State τ (BitVec 32)) (s : Threads τ) action after, Alike m s → Of [a,b] action → step (plus 1) m action = some after →
        ∃ later, run turn s (perform action) = some later ∧ Alike after later :=
      fun _ _ _ _ alike _ ran => alike_performs alike ran
    have begins : Alike (initial start : State τ (BitVec 32)) (created start) := ⟨rfl,rfl⟩
    obtain ⟨s,reached,alike⟩ := run_expands perform forward begins parties ran
    exact ⟨_,s,reached,by rw [alike.memory],by rw [alike.memory]⟩
  have exactly := values_exact turn (created start) Threads.memory different counts rfl performs stores v
  simpa only [plus_iterate,BitVec.ofNat_eq_ofNat,BitVec.mul_one] using exactly

theorem distinct_counts (start : BitVec 32) (most : m ≤ n) (few : n < 2 ^ 32)
    (same : start + BitVec.ofNat 32 m = start + BitVec.ofNat 32 n) : m = n := by
  have counts := congrArg BitVec.toNat ((BitVec.add_right_inj start).mp same)
  rw [BitVec.toNat_ofNat,BitVec.toNat_ofNat,Nat.mod_eq_of_lt (by omega),Nat.mod_eq_of_lt few] at counts
  exact counts

-- No increment is lost exactly when no store of another thread comes between a
-- load of *count and its store.
theorem count_kept (ran : run turn (created start : Threads τ) actions = some s) (few : s.memory.stores < 2 ^ 32) :
    s.memory.cell = start + BitVec.ofNat 32 s.memory.stores ↔
      Every (step (plus 1)) Undisturbed (initial start) (actions.map access) := by
  have counted := run_counted (run_access ran)
  have cell := counted.cell
  simp only [plus_iterate,BitVec.ofNat_eq_ofNat,BitVec.mul_one] at cell
  rw [← depth_exact (run_access ran),cell]
  constructor
  · exact distinct_counts start counted.most few
  · intro all
    rw [all]

end Counts

theorem count_values_lost : ∃ actions, ∃ s : Threads Nat, run turn (created 0) actions = some s ∧
    s.memory.stores = 1000 ∧ s.memory.cell = 1 :=
  (count_values (show (0 : Nat) ≠ 1 by decide) 0 1000 1).mpr ⟨1,⟨by decide,by decide⟩,by decide⟩

def interrupted : List (Turn Nat) :=
  [.print 0,.print 1,.load 0,.load 1,.store 0,.store 1,.mainPrint]

theorem count_kept_interrupted : ∃ s, run turn (created 0) interrupted = some s ∧ s.memory.stores = 2 ∧ s.memory.cell = 1 ∧
    ¬ Every (step (plus 1)) Undisturbed (initial 0) (interrupted.map access) := by
  have ends : (run turn (created 0) interrupted).map (fun s => (s.memory.stores,s.memory.cell)) = some (2,1) := by decide
  obtain ⟨s,ran,shown⟩ := Option.map_eq_some_iff.mp ends
  obtain ⟨stores,cell⟩ := Prod.mk.inj shown
  refine ⟨s,ran,stores,cell,?_⟩
  rw [← count_kept ran (by rw [stores]; decide),stores,cell]
  decide

-- shm_producer and shm_consumer on the segment of key 1234, by pid. A process
-- that is not started takes no step.
inductive Event where
  | load (pid : Nat)
  | store (pid : Nat)
  | printf (pid : Nat)

def segment (producer : Nat → Bool) (s : State Nat (BitVec 32)) : Event → Option (State Nat (BitVec 32))
  | .load pid => if producer pid then step (plus 2) s (.load pid) else none
  | .store pid => if producer pid then step (plus 2) s (.store pid) else none
  | .printf pid => if producer pid then none else step (plus 2) s .look

def Event.access : Event → Action Nat
  | .load pid => .load pid
  | .store pid => .store pid
  | .printf _ => .look

theorem segment_access (ran : segment producer s event = some next) : step (plus 2) s event.access = some next ∧
    (event.access = .look ∨ ∃ pid, producer pid = true ∧ Of [pid] event.access) := by
  cases event with
  | load pid =>
    simp only [segment,Option.ite_none_right_eq_some] at ran
    exact ⟨ran.2,.inr ⟨pid,ran.1,List.mem_singleton.mpr rfl⟩⟩
  | store pid =>
    simp only [segment,Option.ite_none_right_eq_some] at ran
    exact ⟨ran.2,.inr ⟨pid,ran.1,List.mem_singleton.mpr rfl⟩⟩
  | printf pid =>
    simp only [segment,Option.ite_none_left_eq_some] at ran
    exact ⟨ran.2,.inl rfl⟩

theorem segment_counted (ran : run (segment producer) (initial start) events = some s) : Counted (plus 2) start s :=
  run_invariant (fun _ _ _ counted moved => counted_preserved counted (segment_access moved).1) (initial_counted (plus 2) start) ran

def eventsOf : Action Nat → List Event
  | .load pid => [.load pid]
  | .store pid => [.store pid]
  | .look => []

theorem calNum_values (different : a ≠ b) (here : producer a = true) (there : producer b = true) (start : BitVec 32)
    (stores : Nat) (v : BitVec 32) :
    (∃ events s, run (segment producer) (initial start) events = some s ∧ s.stores = stores ∧ s.cell = v) ↔
      ∃ m, Possible stores m ∧ v = start + BitVec.ofNat 32 m * 2 := by
  have counts : ∀ events s, run (segment producer) (initial start) events = some s → Counted (plus 2) start (id s) :=
    fun _ _ ran => segment_counted ran
  have performs : ∀ actions m, (∀ action ∈ actions, Of [a,b] action) → run (step (plus 2)) (initial start) actions = some m →
      ∃ events s, run (segment producer) (initial start) events = some s ∧ (id s).stores = m.stores ∧ (id s).cell = m.cell := by
    intro actions m parties ran
    have forward : ∀ m s action after, m = s → Of [a,b] action → step (plus 2) m action = some after →
        ∃ later, run (segment producer) s (eventsOf action) = some later ∧ after = later := by
      rintro m _ action after rfl mine ran
      have started : ∀ pid ∈ [a,b], producer pid = true := by simp [here,there]
      cases action with
      | look => exact mine.elim
      | load pid => exact ⟨after,by rw [eventsOf,run_cons,segment,if_pos (started pid mine),ran]; rfl,rfl⟩
      | store pid => exact ⟨after,by rw [eventsOf,run_cons,segment,if_pos (started pid mine),ran]; rfl,rfl⟩
    obtain ⟨s,reached,rfl⟩ := run_expands eventsOf forward rfl parties ran
    exact ⟨_,m,reached,rfl,rfl⟩
  have exactly := values_exact (segment producer) (initial start) id different counts rfl performs stores v
  simpa only [plus_iterate,id_eq] using exactly

-- A consumer prints only multiples of two above the first value, and where there
-- is a single producer none of its steps is lost.
theorem calNum_printed (ran : run (segment producer) (initial start) events = some s) :
    (∀ v ∈ s.seen, ∃ m ≤ s.stores, v = start + BitVec.ofNat 32 m * 2) ∧
    ((∀ p q, producer p = true → producer q = true → p = q) → s.cell = start + BitVec.ofNat 32 s.stores * 2) := by
  have counted := segment_counted ran
  refine ⟨?_,?_⟩
  · intro v member
    obtain ⟨m,most,same⟩ := counted.seen v member
    exact ⟨m,most,by rw [same,plus_iterate]⟩
  · intro single
    obtain ⟨pid,only⟩ : ∃ pid, ∀ other, producer other = true → other = pid := by
      by_cases some_ : ∃ pid, producer pid = true
      · obtain ⟨pid,runs⟩ := some_
        exact ⟨pid,fun other theirs => single other pid theirs runs⟩
      · exact ⟨0,fun other theirs => absurd ⟨other,theirs⟩ some_⟩
    have keeps : ∀ s event next, Alone pid s → segment producer s event = some next → Alone pid next := by
      intro s event next alone moved
      obtain ⟨stepped,mine⟩ := segment_access moved
      refine alone_preserved alone ?_ stepped
      rcases mine with look | ⟨other,theirs,mine⟩
      · exact .inl look
      · rw [only other theirs] at mine
        exact .inr mine
    have begins : Alone pid (initial start : State Nat (BitVec 32)) := ⟨rfl,fun _ _ held => nomatch held⟩
    have alone : Alone pid s := run_invariant keeps begins ran
    have cell := counted.cell
    rw [plus_iterate,alone.cell] at cell
    exact cell

theorem calNum_values_lost : ∃ events s, run (segment fun pid => decide (pid < 3)) (initial 0) events = some s ∧
    s.stores = 5000 ∧ s.cell = 4 :=
  (calNum_values (show 0 ≠ 1 by decide) (by decide) (by decide) 0 5000 4).mpr ⟨2,⟨by decide,by decide⟩,by decide⟩

theorem calNum_printed_single : ∃ s, run (segment fun pid => decide (pid = 7)) (initial 5)
    [.load 7,.printf 8,.store 7,.printf 9] = some s ∧ s.seen = [5,7] ∧ s.cell = 5 + BitVec.ofNat 32 s.stores * 2 := by
  have ends : (run (segment fun pid => decide (pid = 7)) (initial 5)
      [.load 7,.printf 8,.store 7,.printf 9]).map (fun s => s.seen) = some [5,7] := by decide
  obtain ⟨s,ran,seen⟩ := Option.map_eq_some_iff.mp ends
  refine ⟨s,ran,seen,(calNum_printed ran).2 ?_⟩
  intro p q first second
  exact (of_decide_eq_true first).trans (of_decide_eq_true second).symm

end NetworkEx.UnlockedCounter
