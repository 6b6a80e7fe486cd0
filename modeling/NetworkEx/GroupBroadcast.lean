import NetworkEx.TransitionRuns

namespace NetworkEx.GroupBroadcast
open TransitionRuns

variable {σ : Type u} {α : Type v} {ι : Type w} {μ : Type x} {step : σ → α → Option σ} {s t : σ}

structure Publication (ι : Type w) (μ : Type x) where
  message : μ
  audience : ι → Bool

def due (log : List (Publication ι μ)) (i : ι) : List μ := (log.filter fun entry => entry.audience i).map Publication.message

@[simp] theorem due_nil (i : ι) : due ([] : List (Publication ι μ)) i = [] := rfl

@[simp] theorem due_append (first second : List (Publication ι μ)) (i : ι) : due (first ++ second) i = due first i ++ due second i := by
  rw [due,List.filter_append,List.map_append]
  rfl

@[simp] theorem due_single (entry : Publication ι μ) (i : ι) : due [entry] i = if entry.audience i then [entry.message] else [] := by
  cases meant : entry.audience i <;> simp [due,meant]

theorem due_congr {log : List (Publication ι μ)} {i j : ι} (same : ∀ entry ∈ log, entry.audience i = entry.audience j) :
    due log i = due log j := by
  rw [due,due,List.filter_congr same]

def sentTo [DecidableEq ι] (sent : List (ι × μ)) (i : ι) : List μ := (sent.filter fun entry => entry.1 = i).map Prod.snd

@[simp] theorem sentTo_nil [DecidableEq ι] (i : ι) : sentTo ([] : List (ι × μ)) i = [] := rfl

theorem sentTo_snoc [DecidableEq ι] (sent : List (ι × μ)) (k i : ι) (message : μ) :
    sentTo (sent ++ [(k,message)]) i = sentTo sent i ++ if k = i then [message] else [] := by
  by_cases equal : k = i <;> simp [sentTo,equal]

-- A loop that goes through the members in order has still to come to those from
-- its counter on.
section Loop

variable {listed : Nat → Bool} {k : Nat}

theorem owed_skips (unlisted : listed k = false) (message : μ) (i : Nat) :
    (if k+1 ≤ i ∧ listed i = true then [message] else []) = if k ≤ i ∧ listed i = true then [message] else [] := by
  have same : (k+1 ≤ i ∧ listed i = true) ↔ (k ≤ i ∧ listed i = true) := by
    refine and_congr_left fun meant => ?_
    have different : k ≠ i := by
      rintro rfl
      cases unlisted.symm.trans meant
    omega
  simp only [same]

theorem owed_sends (meant : listed k = true) (message : μ) (i : Nat) :
    (if k = i then [message] else []) ++ (if k+1 ≤ i ∧ listed i = true then [message] else []) =
      if k ≤ i ∧ listed i = true then [message] else [] := by
  by_cases equal : k = i
  · subst equal
    simp [meant]
  · have same : k+1 ≤ i ↔ k ≤ i := by omega
    simp [equal,same]

theorem owed_past (past : ∀ i, listed i = true → i < k) (message : μ) (i : Nat) :
    (if k ≤ i ∧ listed i = true then [message] else []) = [] := by
  apply if_neg
  intro both
  exact Nat.not_lt_of_le both.1 (past i both.2)

end Loop

-- A machine that passes on messages. It has put out `got` to a member and still
-- owes it `owed`; each step moves between the two and adds what it publishes.
-- A state that is not live has no step, and stops what was being put out.
structure Relay (step : σ → α → Option σ) (inv live : σ → Prop) (publishes : σ → α → List (Publication ι μ))
    (got owed : σ → ι → List μ) : Prop where
  kept : ∀ s action next, inv s → step s action = some next → inv next
  running : ∀ s action next, step s action = some next → live s
  relays : ∀ s action next, inv s → step s action = some next → live next → ∀ i,
    got next i ++ owed next i = got s i ++ owed s i ++ due (publishes s action) i
  halts : ∀ s action next, inv s → step s action = some next → ¬ live next → got next = got s

section Runs

variable {inv live : σ → Prop} {publishes : σ → α → List (Publication ι μ)} {got owed : σ → ι → List μ}

theorem stuck (relay : Relay step inv live publishes got owed) (dead : ¬ live s) (ran : run step s actions = some t) : t = s := by
  cases actions with
  | nil => cases ran; rfl
  | cons action rest =>
    obtain ⟨next,stepped,_⟩ := run_cons_some ran
    exact absurd (relay.running s action next stepped) dead

theorem run_relays (relay : Relay step inv live publishes got owed) (start : inv s) (alive : live t)
    (ran : run step s actions = some t) (i : ι) :
    got t i ++ owed t i = got s i ++ owed s i ++ due (emitted step publishes s actions) i := by
  induction actions generalizing s with
  | nil => cases ran; simp [emitted]
  | cons action rest ih =>
    obtain ⟨next,stepped,onward⟩ := run_cons_some ran
    have between : live next := by
      by_contra dead
      rw [stuck relay dead onward] at alive
      exact dead alive
    rw [emitted_cons stepped,due_append,ih (relay.kept s action next start stepped) onward,
      relay.relays s action next start stepped between i,List.append_assoc _ (due _ i)]

theorem run_front (relay : Relay step inv live publishes got owed) (start : inv s) (ran : run step s actions = some t) (i : ι) :
    got t i <+: got s i ++ owed s i ++ due (emitted step publishes s actions) i := by
  induction actions generalizing s with
  | nil =>
    cases ran
    rw [List.append_assoc]
    exact List.prefix_append _ _
  | cons action rest ih =>
    obtain ⟨next,stepped,onward⟩ := run_cons_some ran
    by_cases between : live next
    · have later := ih (relay.kept s action next start stepped) onward
      rwa [relay.relays s action next start stepped between i,List.append_assoc _ (due _ i),← due_append,
        ← emitted_cons stepped] at later
    · rw [stuck relay between onward,relay.halts s action next start stepped between,List.append_assoc]
      exact List.prefix_append _ _

end Runs

-- One log for all members: each has got a front of what the log holds for it.
def Common (log : List (Publication ι μ)) (got : ι → List μ) : Prop := ∀ i, got i <+: due log i

-- Of two members who are meant the same messages, one has at most not got the
-- last of them yet.
theorem common_agrees {log : List (Publication ι μ)} {got : ι → List μ} (common : Common log got)
    (same : ∀ entry ∈ log, entry.audience i = entry.audience j) : got i <+: got j ∨ got j <+: got i := by
  have other := common j
  rw [← due_congr same] at other
  exact List.prefix_or_prefix_of_prefix (common i) other

end NetworkEx.GroupBroadcast
