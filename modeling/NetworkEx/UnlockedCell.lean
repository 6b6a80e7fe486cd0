import Mathlib.Logic.Function.Iterate
import NetworkEx.TransitionRuns

namespace NetworkEx.UnlockedCell
open TransitionRuns

variable {τ : Type u} {V : Type v}

-- What a party has loaded. `depth` and `turn` are history: how many changes the
-- value stands for, and how many stores there had been.
structure Copy (V : Type v) where
  value : V
  depth : Nat
  turn : Nat

-- A cell that parties change by a load and a store of what becomes of the value
-- loaded. `seen` is what was read of it otherwise, `depth` and `stores` history.
structure State (τ : Type u) (V : Type v) where
  cell : V
  copy : τ → Option (Copy V)
  seen : List V
  depth : Nat
  stores : Nat

def initial (start : V) : State τ V := ⟨start,fun _ => none,[],0,0⟩

inductive Action (τ : Type u) where
  | look
  | load (t : τ)
  | store (t : τ)

-- Nothing keeps others out between a load and its store.
def step [DecidableEq τ] (change : V → V) (s : State τ V) : Action τ → Option (State τ V)
  | .look => some {s with seen := s.seen ++ [s.cell]}
  | .load t =>
    match s.copy t with
    | some _ => none
    | none => some {s with copy := Function.update s.copy t (some ⟨s.cell,s.depth,s.stores⟩)}
  | .store t => (s.copy t).map fun copy => {s with
      cell := change copy.value,copy := Function.update s.copy t none,depth := copy.depth + 1,stores := s.stores + 1}

-- No store has come between this one and its load.
def Undisturbed (s : State τ V) : Action τ → Prop
  | .store t => ∀ copy, s.copy t = some copy → copy.turn = s.stores
  | _ => True

-- Every value stands for some changes of the first one, and for no more than
-- there were stores.
structure Counted (change : V → V) (start : V) (s : State τ V) : Prop where
  cell : s.cell = change^[s.depth] start
  copies : ∀ t copy, s.copy t = some copy → copy.value = change^[copy.depth] start ∧ copy.depth ≤ copy.turn ∧ copy.turn ≤ s.stores
  least : 0 < s.stores → 0 < s.depth
  most : s.depth ≤ s.stores
  seen : ∀ v ∈ s.seen, ∃ m ≤ s.stores, v = change^[m] start

theorem initial_counted (change : V → V) (start : V) : Counted change start (initial start : State τ V) :=
  ⟨rfl,fun _ _ held => (nomatch held),fun some_ => some_,Nat.le_refl _,fun _ member => (nomatch member)⟩

-- How many changes w stores can come to: any number of them, the last store at
-- least.
def Possible (w m : Nat) : Prop := m ≤ w ∧ (0 < w → 0 < m)

theorem counted_possible {s : State τ V} (counted : Counted change start s) : Possible s.stores s.depth := ⟨counted.most,counted.least⟩

def rounds (t : τ) : Nat → List (Action τ)
  | 0 => []
  | n+1 => .load t :: .store t :: rounds t n

def Of (parties : List τ) : Action τ → Prop
  | .load t | .store t => t ∈ parties
  | .look => False

theorem rounds_of {parties : List τ} (member : t ∈ parties) (n : Nat) : ∀ action ∈ rounds t n, Of parties action := by
  induction n with
  | zero => exact fun _ empty => nomatch empty
  | succ n ih => exact List.forall_mem_cons.mpr ⟨member,List.forall_mem_cons.mpr ⟨member,ih⟩⟩

section Steps

variable [DecidableEq τ] {change : V → V} {s next : State τ V}

theorem load_parts (ran : step change s (.load t) = some next) :
    s.copy t = none ∧ next = {s with copy := Function.update s.copy t (some ⟨s.cell,s.depth,s.stores⟩)} := by
  simp only [step] at ran
  split at ran
  · cases ran
  · rename_i free
    cases ran
    exact ⟨free,rfl⟩

theorem store_parts (ran : step change s (.store t) = some next) : ∃ copy, s.copy t = some copy ∧ next = {s with
    cell := change copy.value,copy := Function.update s.copy t none,depth := copy.depth + 1,stores := s.stores + 1} := by
  obtain ⟨copy,held,rfl⟩ := Option.map_eq_some_iff.mp ran
  exact ⟨copy,held,rfl⟩

theorem copies_load {Holds : τ → Copy V → Prop} (known : ∀ u copy, s.copy u = some copy → Holds u copy) (fresh : Holds t new) :
    ∀ u copy, Function.update s.copy t (some new) u = some copy → Holds u copy := by
  intro u copy found
  by_cases equal : u = t
  · rw [equal,Function.update_self] at found
    cases found
    rw [equal]
    exact fresh
  · rw [Function.update_of_ne equal] at found
    exact known u copy found

theorem copies_store {Holds : τ → Copy V → Prop} (known : ∀ u copy, u ≠ t → s.copy u = some copy → Holds u copy) :
    ∀ u copy, Function.update s.copy t none u = some copy → Holds u copy := by
  intro u copy found
  by_cases equal : u = t
  · rw [equal,Function.update_self] at found
    cases found
  · rw [Function.update_of_ne equal] at found
    exact known u copy equal found

theorem counted_preserved (counted : Counted change start s) (ran : step change s action = some next) :
    Counted change start next := by
  cases action with
  | look =>
    cases ran
    refine ⟨counted.cell,counted.copies,counted.least,counted.most,?_⟩
    exact List.forall_mem_append.mpr ⟨counted.seen,List.forall_mem_singleton.mpr ⟨s.depth,counted.most,counted.cell⟩⟩
  | load t =>
    obtain ⟨_,rfl⟩ := load_parts ran
    refine ⟨counted.cell,?_,counted.least,counted.most,counted.seen⟩
    exact copies_load counted.copies ⟨counted.cell,counted.most,Nat.le_refl _⟩
  | store t =>
    obtain ⟨copy,held,rfl⟩ := store_parts ran
    obtain ⟨value,depth,turn⟩ := counted.copies t copy held
    refine ⟨?_,?_,fun _ => Nat.succ_pos _,by simp only; omega,?_⟩
    · rw [Function.iterate_succ_apply',← value]
    · apply copies_store
      intro u other _ known
      obtain ⟨same,older,before⟩ := counted.copies u other known
      exact ⟨same,older,Nat.le_succ_of_le before⟩
    · intro v member
      obtain ⟨m,few,same⟩ := counted.seen v member
      exact ⟨m,Nat.le_succ_of_le few,same⟩

theorem run_counted (ran : run (step change) (initial start) actions = some s) : Counted change start s :=
  run_invariant (fun _ _ _ counted moved => counted_preserved counted moved) (initial_counted change start) ran

-- No change has been lost so far, or at least one has: then no copy is deep
-- enough to make up for it.
structure Level (s : State τ V) : Prop where
  cell : s.depth = s.stores
  copies : ∀ t copy, s.copy t = some copy → copy.depth = copy.turn

structure Behind (s : State τ V) : Prop where
  cell : s.depth < s.stores
  copies : ∀ t copy, s.copy t = some copy → copy.depth < s.stores

theorem level_preserved (level : Level s) (alone : Undisturbed s action) (ran : step change s action = some next) : Level next := by
  cases action with
  | look =>
    cases ran
    exact ⟨level.cell,level.copies⟩
  | load t =>
    obtain ⟨_,rfl⟩ := load_parts ran
    exact ⟨level.cell,copies_load level.copies level.cell⟩
  | store t =>
    obtain ⟨copy,held,rfl⟩ := store_parts ran
    refine ⟨?_,copies_store fun u other _ known => level.copies u other known⟩
    simp only [level.copies t copy held,alone copy held]

theorem behind_preserved (behind : Behind s) (ran : step change s action = some next) : Behind next := by
  cases action with
  | look =>
    cases ran
    exact ⟨behind.cell,behind.copies⟩
  | load t =>
    obtain ⟨_,rfl⟩ := load_parts ran
    exact ⟨behind.cell,copies_load behind.copies behind.cell⟩
  | store t =>
    obtain ⟨copy,held,rfl⟩ := store_parts ran
    refine ⟨Nat.succ_lt_succ (behind.copies t copy held),?_⟩
    apply copies_store
    intro u other _ known
    exact Nat.lt_succ_of_lt (behind.copies u other known)

theorem disturbed_behind (counted : Counted change start s) (disturbed : ¬ Undisturbed s action)
    (ran : step change s action = some next) : Behind next := by
  cases action with
  | look => exact absurd trivial disturbed
  | load t => exact absurd trivial disturbed
  | store t =>
    obtain ⟨copy,held,rfl⟩ := store_parts ran
    obtain ⟨_,depth,turn⟩ := counted.copies t copy held
    have late : copy.turn ≠ s.stores := by
      intro same
      apply disturbed
      intro other found
      cases held.symm.trans found
      exact same
    refine ⟨by simp only; omega,?_⟩
    apply copies_store
    intro u other _ known
    obtain ⟨_,older,before⟩ := counted.copies u other known
    exact Nat.lt_succ_of_le (Nat.le_trans older before)

theorem depth_exact (ran : run (step change) (initial start) actions = some s) :
    s.depth = s.stores ↔ Every (step change) Undisturbed (initial start) actions := by
  constructor
  · intro all
    by_contra fails
    obtain ⟨first,action,rest,before,rfl,reached,disturbed⟩ := every_fails fails ran
    rw [run_append,reached,Option.bind_some] at ran
    obtain ⟨after,stepped,onward⟩ := run_cons_some ran
    have late := disturbed_behind (run_counted reached) disturbed stepped
    have behind : Behind s := run_invariant (fun _ _ _ behind moved => behind_preserved behind moved) late onward
    exact absurd all (Nat.ne_of_lt behind.cell)
  · intro alone
    have start_level : Level (initial start : State τ V) := ⟨rfl,fun _ _ held => nomatch held⟩
    have level : Level s := run_preserves (fun _ _ _ level held moved => level_preserved level held moved) start_level alone ran
    exact level.cell

-- The copy of a party that nobody interferes with.
structure Alone (t : τ) (s : State τ V) : Prop where
  cell : s.depth = s.stores
  copies : ∀ u copy, s.copy u = some copy → u = t ∧ copy.depth = s.stores

theorem alone_preserved (alone : Alone t s) (mine : action = .look ∨ Of [t] action) (ran : step change s action = some next) :
    Alone t next := by
  cases action with
  | look =>
    cases ran
    exact ⟨alone.cell,alone.copies⟩
  | load u =>
    obtain ⟨_,rfl⟩ := load_parts ran
    have same : u = t := List.mem_singleton.mp (mine.resolve_left nofun)
    exact ⟨alone.cell,copies_load alone.copies ⟨same,alone.cell⟩⟩
  | store u =>
    obtain ⟨copy,held,rfl⟩ := store_parts ran
    have same : u = t := List.mem_singleton.mp (mine.resolve_left nofun)
    refine ⟨congrArg (· + 1) (alone.copies u copy held).2,?_⟩
    apply copies_store
    intro v other different found
    exact absurd ((alone.copies v other found).1.trans same.symm) different

theorem rounds_run (change : V → V) (free : s.copy t = none) (n : Nat) : ∃ after, run (step change) s (rounds t n) = some after ∧
    after.cell = change^[n] s.cell ∧ after.stores = s.stores + n ∧ after.copy = s.copy := by
  induction n generalizing s with
  | zero => exact ⟨s,rfl,rfl,rfl,rfl⟩
  | succ n ih =>
    let loaded : State τ V := {s with copy := Function.update s.copy t (some ⟨s.cell,s.depth,s.stores⟩)}
    let stored : State τ V := {s with cell := change s.cell,depth := s.depth + 1,stores := s.stores + 1}
    have loads : step change s (.load t) = some loaded := by simp only [step,free]; rfl
    have stores : step change loaded (.store t) = some stored := by
      simp only [step,loaded,stored,Function.update_self,Option.map_some,Function.update_idem]
      rw [Function.update_eq_self_iff.mpr free.symm]
    obtain ⟨after,ran,cell,count,copies⟩ := @ih stored free
    refine ⟨after,?_,?_,?_,copies⟩
    · rw [rounds,run_cons,loads,Option.bind_some,run_cons,stores]
      exact ran
    · rw [cell,Function.iterate_succ_apply]
    · rw [count]
      simp only [stored]
      omega

theorem value_reached (change : V → V) {a b : τ} (different : a ≠ b) (start : V) (some_ : 0 < m) (most : m ≤ w) :
    ∃ actions, ∃ s : State τ V, (∀ action ∈ actions, Of [a,b] action) ∧
      run (step change) (initial start) actions = some s ∧ s.stores = w ∧ s.cell = change^[m] start := by
  obtain ⟨n,rfl⟩ : ∃ n, m = n + 1 := ⟨m - 1,by omega⟩
  let early : State τ V := ⟨start,Function.update (fun _ => none) b (some ⟨start,0,0⟩),[],0,0⟩
  have loads : step change (initial start) (.load b) = some early := rfl
  have freeA : early.copy a = none := by simp only [early,Function.update_of_ne different]
  obtain ⟨middle,first,_,count,copies⟩ := rounds_run change freeA (w - (n+1))
  have heldB : middle.copy b = some ⟨start,0,0⟩ := by simp only [copies,early,Function.update_self]
  let late : State τ V := {middle with
    cell := change start,copy := Function.update middle.copy b none,depth := 1,stores := middle.stores + 1}
  have stores : step change middle (.store b) = some late := by simp only [step,heldB,Option.map_some]; rfl
  have freeB : late.copy a = none := by
    simp only [late,copies,Function.update_of_ne different]
    exact freeA
  obtain ⟨after,second,cell,total,_⟩ := rounds_run change freeB n
  refine ⟨.load b :: (rounds a (w - (n+1)) ++ .store b :: rounds a n),after,?_,?_,?_,?_⟩
  · have mineA : a ∈ [a,b] := by simp
    have mineB : b ∈ [a,b] := by simp
    exact List.forall_mem_cons.mpr ⟨mineB,List.forall_mem_append.mpr
      ⟨rounds_of mineA _,List.forall_mem_cons.mpr ⟨mineB,rounds_of mineA n⟩⟩⟩
  · rw [run_cons,loads,Option.bind_some,run_append,first,Option.bind_some,run_cons,stores]
    exact second
  · rw [total]
    simp only [late,count,early]
    omega
  · rw [cell,Function.iterate_succ_apply]

-- What a machine does that drives the cell, and has it reach all that two
-- parties can reach, is exactly what is possible.
theorem values_exact {σ : Type w} {α : Type x} (turn : σ → α → Option σ) (begun : σ) {a b : τ} (memory : σ → State τ V)
    (different : a ≠ b) (counts : ∀ actions s, run turn begun actions = some s → Counted change start (memory s))
    (begins : memory begun = initial start)
    (performs : ∀ actions m, (∀ action ∈ actions, Of [a,b] action) → run (step change) (initial start) actions = some m →
      ∃ others s, run turn begun others = some s ∧ (memory s).stores = m.stores ∧ (memory s).cell = m.cell)
    (stores : Nat) (v : V) :
    (∃ actions s, run turn begun actions = some s ∧ (memory s).stores = stores ∧ (memory s).cell = v) ↔
      ∃ m, Possible stores m ∧ v = change^[m] start := by
  constructor
  · rintro ⟨actions,s,ran,rfl,rfl⟩
    have counted := counts actions s ran
    exact ⟨(memory s).depth,counted_possible counted,counted.cell⟩
  · rintro ⟨m,⟨most,least⟩,rfl⟩
    by_cases some_ : 0 < m
    · obtain ⟨actions,s,parties,ran,rfl,same⟩ := value_reached change different start some_ most
      obtain ⟨others,t,reached,count,cell⟩ := performs actions s parties ran
      exact ⟨others,t,reached,count,cell.trans same⟩
    · have none_ : m = 0 := by omega
      have never : stores = 0 := by
        by_contra stored
        exact some_ (least (Nat.pos_of_ne_zero stored))
      refine ⟨[],begun,rfl,?_,?_⟩
      · rw [begins,never]
        rfl
      · rw [begins,none_]
        rfl

end Steps

end NetworkEx.UnlockedCell
