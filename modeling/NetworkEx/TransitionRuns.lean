import Mathlib.Data.List.Basic
import Mathlib.Data.List.Forall2

namespace NetworkEx.TransitionRuns

variable {σ : Type u} {α : Type v} {step : σ → α → Option σ} {s t middle : σ}

-- A machine answers none where an action is not enabled. The environment's
-- freedom lies in the choice of the action list, so a run is one such list.
def run (step : σ → α → Option σ) : σ → List α → Option σ
  | s,[] => some s
  | s,action :: rest => (step s action).bind (run step · rest)

@[simp] theorem run_nil : run step s [] = some s := rfl

theorem run_cons : run step s (action :: rest) = (step s action).bind (run step · rest) := rfl

theorem run_append : run step s (first ++ second) = (run step s first).bind (run step · second) := by
  induction first generalizing s with
  | nil => rfl
  | cons action rest ih =>
    simp only [List.cons_append,run_cons]
    cases step s action with
    | none => rfl
    | some next => exact ih

theorem run_cons_some (ran : run step s (action :: rest) = some t) :
    ∃ next, step s action = some next ∧ run step next rest = some t := by
  simpa only [run_cons,Option.bind_eq_some_iff] using ran

theorem run_total (all : ∀ action ∈ actions, ∀ s, (step s action).isSome) (s : σ) : (run step s actions).isSome := by
  induction actions generalizing s with
  | nil => rfl
  | cons action rest ih =>
    obtain ⟨next,stepped⟩ := Option.isSome_iff_exists.mp (all action List.mem_cons_self s)
    rw [run_cons,stepped]
    exact ih (fun later member => all later (List.mem_cons_of_mem _ member)) next

theorem run_split (ends : (run step s (first ++ action :: rest)).isSome) :
    ∃ before after, run step s first = some before ∧ step before action = some after := by
  obtain ⟨t,ran⟩ := Option.isSome_iff_exists.mp ends
  rw [run_append] at ran
  obtain ⟨before,reached,ran⟩ := Option.bind_eq_some_iff.mp ran
  obtain ⟨after,stepped,_⟩ := run_cons_some ran
  exact ⟨before,after,reached,stepped⟩

-- A condition on every step of a run, read at the state before the step.
def Every (step : σ → α → Option σ) (holds : σ → α → Prop) : σ → List α → Prop
  | _,[] => True
  | s,action :: rest => holds s action ∧ ∀ next, step s action = some next → Every step holds next rest

-- A condition on every state a run passes through, its first and last included.
def Always (step : σ → α → Option σ) (good : σ → Prop) (s : σ) (actions : List α) : Prop :=
  ∀ k t, run step s (actions.take k) = some t → good t

instance decideEvery {holds : σ → α → Prop} [∀ s action, Decidable (holds s action)] :
    (s : σ) → (actions : List α) → Decidable (Every step holds s actions)
  | _,[] => .isTrue trivial
  | s,action :: rest =>
    match stepped : step s action with
    | none => decidable_of_iff (holds s action) ⟨fun held => ⟨held,fun _ ran => nomatch stepped.symm.trans ran⟩,And.left⟩
    | some next =>
      have : Decidable (Every step holds next rest) := decideEvery next rest
      decidable_of_iff (holds s action ∧ Every step holds next rest)
        (and_congr Iff.rfl ⟨fun all _ ran => Option.some.inj (stepped.symm.trans ran) ▸ all,fun all => all next stepped⟩)

theorem every_congr {inv : σ → Prop} {left right : σ → α → Prop}
    (keeps : ∀ s action next, inv s → step s action = some next → inv next)
    (same : ∀ s action, inv s → (left s action ↔ right s action)) (start : inv s) :
    Every step left s actions ↔ Every step right s actions := by
  induction actions generalizing s with
  | nil => exact Iff.rfl
  | cons action rest ih =>
    exact and_congr (same s action start)
      (forall_congr' fun next => forall_congr' fun ran => ih (keeps s action next start ran))

theorem every_congr_along {left right : σ → α → Prop}
    (same : ∀ s action next, step s action = some next → (left s action ↔ right s action))
    (ran : run step s actions = some t) : Every step left s actions ↔ Every step right s actions := by
  induction actions generalizing s with
  | nil => exact Iff.rfl
  | cons action rest ih =>
    obtain ⟨next,stepped,onward⟩ := run_cons_some ran
    refine and_congr (same s action next stepped) ?_
    apply forall_congr'
    intro other
    apply forall_congr'
    intro again
    cases stepped.symm.trans again
    exact ih onward

theorem every_append (all : Every step holds s (first ++ second)) (ran : run step s first = some middle) :
    Every step holds s first ∧ Every step holds middle second := by
  induction first generalizing s with
  | nil => cases ran; exact ⟨trivial,all⟩
  | cons action rest ih =>
    obtain ⟨next,stepped,onward⟩ := run_cons_some ran
    refine ⟨⟨all.1,?_⟩,(ih (all.2 next stepped) onward).2⟩
    intro other same
    cases stepped.symm.trans same
    exact (ih (all.2 next stepped) onward).1

theorem every_take (all : Every step holds s actions) (k : Nat) : Every step holds s (actions.take k) := by
  induction actions generalizing s k with
  | nil => simpa using all
  | cons action rest ih =>
    cases k with
    | zero => trivial
    | succ k => exact ⟨all.1,fun next stepped => ih (all.2 next stepped) k⟩

theorem every_and {left right : σ → α → Prop} (first : Every step left s actions) (second : Every step right s actions) :
    Every step (fun s action => left s action ∧ right s action) s actions := by
  induction actions generalizing s with
  | nil => trivial
  | cons action rest ih => exact ⟨⟨first.1,second.1⟩,fun next stepped => ih (first.2 next stepped) (second.2 next stepped)⟩

theorem run_preserves {inv : σ → Prop} {holds : σ → α → Prop}
    (keeps : ∀ s action next, inv s → holds s action → step s action = some next → inv next)
    (start : inv s) (all : Every step holds s actions) (ran : run step s actions = some t) : inv t := by
  induction actions generalizing s with
  | nil => cases ran; exact start
  | cons action rest ih =>
    obtain ⟨next,stepped,onward⟩ := run_cons_some ran
    exact ih (keeps _ _ _ start all.1 stepped) (all.2 next stepped) onward

theorem run_invariant {inv : σ → Prop} (keeps : ∀ s action next, inv s → step s action = some next → inv next)
    (start : inv s) (ran : run step s actions = some t) : inv t := by
  induction actions generalizing s with
  | nil => cases ran; exact start
  | cons action rest ih =>
    obtain ⟨next,stepped,onward⟩ := run_cons_some ran
    exact ih (keeps _ _ _ start stepped) onward

theorem run_beside {given inv : σ → Prop} (kept : ∀ s action next, given s → step s action = some next → given next)
    (keeps : ∀ s action next, given s → inv s → step s action = some next → inv next) (known : given s) (start : inv s)
    (ran : run step s actions = some t) : inv t := by
  let Both (s : σ) : Prop := given s ∧ inv s
  have both : ∀ s action next, Both s → step s action = some next → Both next :=
    fun s action next valid moved => ⟨kept s action next valid.1 moved,keeps s action next valid.1 valid.2 moved⟩
  have ends : Both t := run_invariant both ⟨known,start⟩ ran
  exact ends.2

theorem every_of_preserves {inv : σ → Prop} {holds wanted : σ → α → Prop}
    (keeps : ∀ s action next, inv s → holds s action → step s action = some next → inv next)
    (enough : ∀ s action, inv s → holds s action → wanted s action) (start : inv s)
    (all : Every step holds s actions) : Every step wanted s actions := by
  induction actions generalizing s with
  | nil => trivial
  | cons action rest ih =>
    exact ⟨enough _ _ start all.1,fun next stepped => ih (keeps _ _ _ start all.1 stepped) (all.2 next stepped)⟩

theorem always_of_preserves {inv good : σ → Prop} {holds : σ → α → Prop}
    (keeps : ∀ s action next, inv s → holds s action → step s action = some next → inv next)
    (enough : ∀ s, inv s → good s) (start : inv s) (all : Every step holds s actions) :
    Always step good s actions :=
  fun k _ ran => enough _ (run_preserves keeps start (every_take all k) ran)

theorem always_tail (always : Always step good s (action :: rest)) (stepped : step s action = some next) :
    Always step good next rest :=
  fun k t ran => always (k+1) t (by simpa [run_cons,stepped] using ran)

theorem always_last (always : Always step good s actions) (ran : run step s actions = some t) : good t :=
  always actions.length t (by rw [List.take_length,ran])

theorem always_seen {seen : σ → β} (always : Always step good s actions) (ends : (run step s actions).map seen = some b) :
    ∃ t, good t ∧ seen t = b := by
  obtain ⟨t,ran,same⟩ := Option.map_eq_some_iff.mp ends
  exact ⟨t,always_last always ran,same⟩

-- Where each step that the run allows lands in a good state exactly under its
-- condition, the run stays in good states exactly when all its steps meet it.
theorem always_iff_every_allowed {inv good : σ → Prop} {allowed holds : σ → α → Prop}
    (keeps : ∀ s action next, inv s → allowed s action → holds s action → step s action = some next → inv next)
    (exactly : ∀ s action next, inv s → allowed s action → good s → step s action = some next →
      (good next ↔ holds s action))
    (start : inv s) (fine : good s) (permitted : Every step allowed s actions) (ran : run step s actions = some t) :
    Always step good s actions ↔ Every step holds s actions := by
  induction actions generalizing s with
  | nil =>
    refine ⟨fun _ => trivial,fun _ k u reached => ?_⟩
    rw [List.take_nil] at reached
    cases reached; exact fine
  | cons action rest ih =>
    obtain ⟨next,stepped,onward⟩ := run_cons_some ran
    have here := exactly _ _ _ start permitted.1 fine stepped
    have later := permitted.2 next stepped
    constructor
    · intro always
      have fineNext : good next := always 1 next (by simp [run_cons,stepped])
      have held := here.mp fineNext
      refine ⟨held,fun other same => ?_⟩
      cases stepped.symm.trans same
      exact (ih (keeps _ _ _ start permitted.1 held stepped) fineNext later onward).mp (always_tail always stepped)
    · intro ⟨held,tail⟩ k u reached
      have onwards := (ih (keeps _ _ _ start permitted.1 held stepped) (here.mpr held) later onward).mpr (tail next stepped)
      cases k with
      | zero => cases reached; exact fine
      | succ k => exact onwards k u (by simpa [run_cons,stepped] using reached)

theorem every_of_actions {holds : σ → α → Prop} (all : ∀ action ∈ actions, ∀ s, holds s action) (s : σ) :
    Every step holds s actions := by
  induction actions generalizing s with
  | nil => trivial
  | cons action rest ih =>
    exact ⟨all action List.mem_cons_self s,
      fun next _ => ih (fun later member => all later (List.mem_cons_of_mem _ member)) next⟩

theorem run_allowed {inv : σ → Prop} {allowed : α → Prop}
    (keeps : ∀ s action next, inv s → allowed action → step s action = some next → inv next)
    (start : inv s) (all : ∀ action ∈ actions, allowed action) (ran : run step s actions = some t) : inv t :=
  run_preserves keeps start (every_of_actions (fun action member _ => all action member) s) ran

theorem every_of_all {holds : σ → α → Prop} (all : ∀ s action, holds s action) (s : σ) (actions : List α) :
    Every step holds s actions := every_of_actions (fun action _ s => all s action) s

theorem always_iff_every {inv good : σ → Prop} {holds : σ → α → Prop}
    (keeps : ∀ s action next, inv s → holds s action → step s action = some next → inv next)
    (exactly : ∀ s action next, inv s → good s → step s action = some next → (good next ↔ holds s action))
    (start : inv s) (fine : good s) (ran : run step s actions = some t) :
    Always step good s actions ↔ Every step holds s actions := by
  let whatever : σ → α → Prop := fun _ _ => True
  have keepsAnyway : ∀ s action next, inv s → whatever s action → holds s action → step s action = some next → inv next :=
    fun s action next valid _ held ran => keeps s action next valid held ran
  have exactlyAnyway : ∀ s action next, inv s → whatever s action → good s → step s action = some next →
      (good next ↔ holds s action) := fun s action next valid _ fine ran => exactly s action next valid fine ran
  exact always_iff_every_allowed keepsAnyway exactlyAnyway start fine (every_of_all (fun _ _ => trivial) s actions) ran

theorem run_simulates {related : σ → σ → Prop} {alike : α → α → Prop} {holds : σ → α → Prop}
    (forward : ∀ s t action other next, related s t → alike action other → holds s action →
      step s action = some next → ∃ after, step t other = some after ∧ related next after)
    (start : related s t) (same : List.Forall₂ alike actions others) (all : Every step holds s actions)
    (ran : run step s actions = some next) : ∃ after, run step t others = some after ∧ related next after := by
  induction same generalizing s t with
  | nil => cases ran; exact ⟨t,rfl,start⟩
  | cons pair _ ih =>
    obtain ⟨middle,stepped,onward⟩ := run_cons_some ran
    obtain ⟨between,followed,still⟩ := forward _ _ _ _ _ start pair all.1 stepped
    obtain ⟨after,reached,final⟩ := ih still (all.2 middle stepped) onward
    exact ⟨after,by rw [run_cons,followed]; exact reached,final⟩

theorem run_follows {related : σ → σ → Prop} {alike : α → α → Prop}
    (forward : ∀ s t action other next, related s t → alike action other →
      step s action = some next → ∃ after, step t other = some after ∧ related next after)
    (start : related s t) (same : List.Forall₂ alike actions others) (ran : run step s actions = some next) :
    ∃ after, run step t others = some after ∧ related next after := by
  let holds : σ → α → Prop := fun _ _ => True
  have whatever : ∀ s t action other next, related s t → alike action other → holds s action →
      step s action = some next → ∃ after, step t other = some after ∧ related next after :=
    fun s t action other next pair same _ ran => forward s t action other next pair same ran
  exact run_simulates whatever start same (every_of_all (fun _ _ => trivial) _ _) ran

-- One machine follows another with as many steps of its own as each one needs.
theorem run_expands {ρ : Type w} {β : Type x} {other : ρ → β → Option ρ} {related : σ → ρ → Prop} {allowed : α → Prop}
    {p : ρ} (expand : α → List β)
    (forward : ∀ s p action next, related s p → allowed action → step s action = some next →
      ∃ after, run other p (expand action) = some after ∧ related next after)
    (start : related s p) (all : ∀ action ∈ actions, allowed action) (ran : run step s actions = some t) :
    ∃ after, run other p (actions.flatMap expand) = some after ∧ related t after := by
  induction actions generalizing s p with
  | nil => cases ran; exact ⟨p,rfl,start⟩
  | cons action rest ih =>
    obtain ⟨next,stepped,onward⟩ := run_cons_some ran
    obtain ⟨between,followed,still⟩ := forward s p action next start (all action List.mem_cons_self) stepped
    obtain ⟨after,reached,final⟩ := ih still (fun later member => all later (List.mem_cons_of_mem _ member)) onward
    exact ⟨after,by rw [List.flatMap_cons,run_append,followed]; exact reached,final⟩

theorem every_fails {holds : σ → α → Prop} (fails : ¬ Every step holds s actions) (ran : run step s actions = some t) :
    ∃ first action rest before, actions = first ++ action :: rest ∧ run step s first = some before ∧
      ¬ holds before action := by
  induction actions generalizing s with
  | nil => exact absurd trivial fails
  | cons action rest ih =>
    obtain ⟨next,stepped,onward⟩ := run_cons_some ran
    by_cases held : holds s action
    · have later : ¬ Every step holds next rest := by
        intro all
        refine fails ⟨held,fun other same => ?_⟩
        cases stepped.symm.trans same
        exact all
      obtain ⟨first,bad,behind,before,rfl,reached,broken⟩ := ih later onward
      exact ⟨action :: first,bad,behind,before,rfl,by rw [run_cons,stepped]; exact reached,broken⟩
    · exact ⟨[],action,rest,s,rfl,rfl,held⟩

-- Where each own step takes off some weight, no run of such steps is longer than
-- the weight it starts with, and each can be led on to where nothing is left to do.
theorem every_bounded {inv : σ → Prop} {own : σ → α → Prop} {weight : σ → Nat}
    (keeps : ∀ s action next, inv s → own s action → step s action = some next → inv next)
    (drops : ∀ s action next, inv s → own s action → step s action = some next → weight next < weight s)
    (start : inv s) (all : Every step own s actions) (ran : run step s actions = some t) :
    weight t + actions.length ≤ weight s := by
  induction actions generalizing s with
  | nil => cases ran; exact Nat.le_refl _
  | cons action rest ih =>
    obtain ⟨next,stepped,onward⟩ := run_cons_some ran
    obtain ⟨mine,others⟩ := all
    have here := drops s action next start mine stepped
    have later := ih (keeps s action next start mine stepped) (others next stepped) onward
    rw [List.length_cons]
    omega

theorem every_settles {inv : σ → Prop} {own : σ → α → Prop} {weight : σ → Nat}
    (keeps : ∀ s action next, inv s → own s action → step s action = some next → inv next)
    (drops : ∀ s action next, inv s → own s action → step s action = some next → weight next < weight s) (start : inv s) :
    ∃ more t, Every step own s more ∧ run step s more = some t ∧ ∀ action, own t action → step t action = none := by
  induction heavy : weight s using Nat.strongRecOn generalizing s with
  | ind n ih =>
    by_cases goesOn : ∃ action, own s action ∧ (step s action).isSome
    · obtain ⟨action,mine,enabled⟩ := goesOn
      obtain ⟨next,stepped⟩ := Option.isSome_iff_exists.mp enabled
      have lighter := drops s action next start mine stepped
      obtain ⟨more,t,all,ran,ended⟩ := ih (weight next) (heavy ▸ lighter) (keeps s action next start mine stepped) rfl
      refine ⟨action :: more,t,⟨mine,?_⟩,?_,ended⟩
      · intro other same
        cases stepped.symm.trans same
        exact all
      · rw [run_cons,stepped]
        exact ran
    · refine ⟨[],s,trivial,rfl,fun action mine => ?_⟩
      by_contra enabled
      exact goesOn ⟨action,mine,Option.isSome_iff_ne_none.mpr enabled⟩

theorem every_actions {own : α → Prop} (all : Every step (fun _ => own) s actions) (ran : run step s actions = some t) :
    ∀ action ∈ actions, own action := by
  induction actions generalizing s with
  | nil => exact nofun
  | cons action rest ih =>
    obtain ⟨next,stepped,onward⟩ := run_cons_some ran
    exact List.forall_mem_cons.mpr ⟨all.1,ih (all.2 next stepped) onward⟩

theorem run_bounded {inv : σ → Prop} {own : α → Prop} {weight : σ → Nat}
    (keeps : ∀ s action next, inv s → own action → step s action = some next → inv next)
    (drops : ∀ s action next, inv s → own action → step s action = some next → weight next < weight s)
    (start : inv s) (all : ∀ action ∈ actions, own action) (ran : run step s actions = some t) :
    weight t + actions.length ≤ weight s :=
  every_bounded keeps drops start (every_of_actions (fun action member _ => all action member) s) ran

theorem run_settles {inv : σ → Prop} {own : α → Prop} {weight : σ → Nat}
    (keeps : ∀ s action next, inv s → own action → step s action = some next → inv next)
    (drops : ∀ s action next, inv s → own action → step s action = some next → weight next < weight s) (start : inv s) :
    ∃ more t, (∀ action ∈ more, own action) ∧ run step s more = some t ∧ ∀ action, own action → step t action = none := by
  obtain ⟨more,t,all,ran,ended⟩ := every_settles keeps drops start
  exact ⟨more,t,every_actions all ran,ran,ended⟩

-- What the steps of a run put out, as far as the run goes.
def emitted (step : σ → α → Option σ) (emits : σ → α → List β) : σ → List α → List β
  | _,[] => []
  | s,action :: rest => emits s action ++ ((step s action).map fun next => emitted step emits next rest).getD []

theorem emitted_cons (stepped : step s action = some next) (emits : σ → α → List β) (rest : List α) :
    emitted step emits s (action :: rest) = emits s action ++ emitted step emits next rest := by
  rw [emitted,stepped]; rfl

theorem emitted_source {emits : σ → α → List β} (member : b ∈ emitted step emits s actions) :
    ∃ first action rest before, actions = first ++ action :: rest ∧ run step s first = some before ∧ b ∈ emits before action := by
  induction actions generalizing s with
  | nil => cases member
  | cons action rest ih =>
    rcases List.mem_append.mp member with here | later
    · exact ⟨[],action,rest,s,rfl,rfl,here⟩
    · cases stepped : step s action with
      | none => simp [stepped] at later
      | some next =>
        simp only [stepped,Option.map_some,Option.getD_some] at later
        obtain ⟨first,there,behind,before,rfl,reached,put⟩ := ih later
        exact ⟨action :: first,there,behind,before,rfl,by rw [run_cons,stepped]; exact reached,put⟩

theorem every_of_emitted {emits : σ → α → List β} {good : β → Prop} (all : ∀ b ∈ emitted step emits s actions, good b) :
    Every step (fun s action => ∀ b ∈ emits s action, good b) s actions := by
  induction actions generalizing s with
  | nil => trivial
  | cons action rest ih =>
    refine ⟨fun b member => all b (List.mem_append_left _ member),?_⟩
    intro next stepped
    apply ih
    intro b member
    exact all b (by rw [emitted_cons stepped]; exact List.mem_append_right _ member)

-- A ledger that balances over each step balances over the run.
theorem emitted_balance [DecidableEq β] {inv : σ → Prop} {holds : σ → α → Prop} {gains losses : σ → α → List β}
    {held : σ → Nat} (b : β) (keeps : ∀ s action next, inv s → holds s action → step s action = some next → inv next)
    (balanced : ∀ s action next, inv s → holds s action → step s action = some next →
      held next + (losses s action).count b = held s + (gains s action).count b)
    (start : inv s) (all : Every step holds s actions) (ran : run step s actions = some t) :
    held t + (emitted step losses s actions).count b = held s + (emitted step gains s actions).count b := by
  induction actions generalizing s with
  | nil => cases ran; rfl
  | cons action rest ih =>
    obtain ⟨next,stepped,onward⟩ := run_cons_some ran
    have here := balanced _ _ _ start all.1 stepped
    have later := ih (keeps _ _ _ start all.1 stepped) (all.2 next stepped) onward
    rw [emitted_cons stepped,emitted_cons stepped,List.count_append,List.count_append]
    omega

-- The same machine with something noted beside the state, which the machine
-- itself never reads.
def watched (step : σ → α → Option σ) (note : ω → σ → α → ω) : σ × ω → α → Option (σ × ω)
  | (s,w),action => (step s action).map fun next => (next,note w s action)

theorem watched_some {note : ω → σ → α → ω} (stepped : watched step note before action = some after) :
    step before.1 action = some after.1 ∧ after.2 = note before.2 before.1 action := by
  obtain ⟨next,ran,rfl⟩ := Option.map_eq_some_iff.mp stepped
  exact ⟨ran,rfl⟩

theorem watched_of {note : ω → σ → α → ω} {before : σ × ω} (stepped : step before.1 action = some next) :
    watched step note before action = some (next,note before.2 before.1 action) := by
  simp [watched,stepped]

theorem watched_preserves {note : ω → σ → α → ω} {w v : ω} {inv : σ → ω → Prop} {allowed : α → Prop}
    (keeps : ∀ s w action next, inv s w → allowed action → step s action = some next → inv next (note w s action))
    (start : inv s w) (all : ∀ action ∈ actions, allowed action)
    (ran : run (watched step note) (s,w) actions = some (t,v)) : inv t v := by
  let Kept (p : σ × ω) : Prop := inv p.1 p.2
  have onward : ∀ p action q, Kept p → allowed action → watched step note p action = some q → Kept q := by
    intro p action q kept permitted moved
    obtain ⟨stepped,noted⟩ := watched_some moved
    have after := keeps p.1 p.2 action q.1 kept permitted stepped
    rwa [← noted] at after
  have kept : Kept (t,v) := run_allowed onward start all ran
  exact kept

theorem watched_run {note : ω → σ → α → ω} {w : ω} (ran : run step s actions = some t) :
    ∃ v, run (watched step note) (s,w) actions = some (t,v) := by
  induction actions generalizing s w with
  | nil => cases ran; exact ⟨w,rfl⟩
  | cons action rest ih =>
    obtain ⟨next,stepped,onward⟩ := run_cons_some ran
    obtain ⟨v,reached⟩ := @ih next (note w s action) onward
    exact ⟨v,by simp [run_cons,watched,stepped,reached]⟩

theorem watched_forget {note : ω → σ → α → ω} {before after : σ × ω} (ran : run (watched step note) before actions = some after) :
    run step before.1 actions = some after.1 := by
  induction actions generalizing before with
  | nil => cases ran; rfl
  | cons action rest ih =>
    obtain ⟨next,moved,onward⟩ := run_cons_some ran
    rw [run_cons,(watched_some moved).1]
    exact ih onward

theorem watched_every {note : ω → σ → α → ω} {w : ω} {holds : σ → α → Prop} :
    Every (watched step note) (fun p => holds p.1) (s,w) actions ↔ Every step holds s actions := by
  induction actions generalizing s w with
  | nil => exact Iff.rfl
  | cons action rest ih =>
    refine and_congr Iff.rfl ?_
    constructor
    · intro all next stepped
      exact ih.mp (all (next,note w s action) (by simp [watched,stepped]))
    · intro all after stepped
      obtain ⟨next,ran,rfl⟩ := Option.map_eq_some_iff.mp stepped
      exact ih.mpr (all next ran)

end NetworkEx.TransitionRuns
