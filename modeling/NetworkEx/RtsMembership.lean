import NetworkEx.ChatSurvival

namespace NetworkEx.RtsMembership
open ByteStreams ChatSockets TransitionRuns RtsChat ChatSurvival

def Small : Action → Prop
  | .take (some fd) => fd < maxClients
  | _ => True

def Within (s : State) : Prop := ∀ fd, s.pc = .accepted fd → fd < maxClients

-- An open connection that went through all of setup_sigio.
def Joined (conns : Nat → Option Client) (i : Nat) : Prop := ∃ c, conns i = some c ∧ c.armed = true

structure Membership (s : State) : Prop where
  exactly : ∀ i, s.userFds i = 1 ↔ Joined s.conns i
  inside : ∀ i, s.userFds i = 1 → i < maxClients

def mark (before : List (Nat × Bytes)) (s : State) : Action → List (Nat × Bytes)
  | .take _ => s.calls
  | _ => before

-- The table is exact, and the loop of send_chat_msg has called write with the
-- text once for every member below the slot it has come to, and for nothing else.
structure Served (p : State × List (Nat × Bytes)) : Prop where
  running : p.1.pc.live = true
  membership : Membership p.1
  delivered : ∀ fd msg text i, p.1.pc = .broadcast fd msg text i →
    p.1.calls = p.2 ++ ((List.range i).filter fun j => p.1.userFds j = 1).map fun j => (j,text)

-- A read that brings data goes into the loop, at its first slot.
def Answers (listenfd : Nat) (s : State) (action : Action) : Prop :=
  ∀ next accepted fd rest c chunk, action = .take accepted → step listenfd s action = some next →
    s.signals = fd :: rest → fd ≠ listenfd → s.conns fd = some c → c.read = .data chunk →
      ∃ msg text, next.pc = .broadcast fd msg text 0

theorem joined_update (opened : conns fd = some c) (same : next.armed = c.armed) (i : Nat) :
    Joined (Function.update conns fd (some next)) i ↔ Joined conns i := by
  by_cases equal : i = fd
  · subst equal; simp [Joined,opened,same]
  · simp [Joined,Function.update_of_ne equal]

theorem initial_membership : Membership initial := ⟨by simp [initial,Joined],by simp [initial]⟩

theorem membership_update (valid : Membership s) (opened : s.conns fd = some c) (same : next.armed = c.armed) :
    ∀ i, s.userFds i = 1 ↔ Joined (Function.update s.conns fd (some next)) i :=
  fun i => (valid.exactly i).trans (joined_update opened same i).symm

theorem membership_drop (valid : Membership s) : Membership (drop s fd) := by
  constructor
  · intro i
    by_cases equal : i = fd
    · subst equal; simp [drop,Joined]
    · simpa [drop,Joined,Function.update_of_ne equal] using valid.exactly i
  · intro i listed
    by_cases equal : i = fd
    · subst equal; simp [drop] at listed
    · simp only [drop,Function.update_of_ne equal] at listed
      exact valid.inside i listed

theorem membership_unarmed (valid : Membership s) (unlisted : s.userFds fd ≠ 1) (unarmed : c.armed = false) :
    ∀ i, s.userFds i = 1 ↔ Joined (Function.update s.conns fd (some c)) i := by
  intro i
  by_cases equal : i = fd
  · subst equal; simp [Joined,unlisted,unarmed]
  · simpa [Joined,Function.update_of_ne equal] using valid.exactly i

theorem membership_registers (valid : Membership s) (small : fd < maxClients) (armed : c.armed = true)
    (conns : next.conns = Function.update s.conns fd (some c)) (table : next.userFds = Function.update s.userFds fd 1) :
    Membership next := by
  constructor
  · intro i
    rw [table,conns]
    by_cases equal : i = fd
    · subst equal; simp [Joined,armed]
    · simpa [Joined,Function.update_of_ne equal] using valid.exactly i
  · intro i listed
    rw [table] at listed
    by_cases equal : i = fd
    · subst equal; exact small
    · rw [Function.update_of_ne equal] at listed
      exact valid.inside i listed

theorem within_preserved (within : Within s) (small : Small action) (stepped : Stepped listenfd s action next) :
    Within next := by
  cases stepped with
  | connect live => exact within
  | pendingPeer live pending moved => exact within
  | peer live opened moved => exact within
  | acceptFails waiting head => exact within
  | accepts waiting head first other below free =>
    intro fd here
    cases here; exact small
  | stale waiting head other gone => exact within
  | drops waiting head other opened ended => exact within
  | _ => simp [Within]

theorem membership_preserved (members : Members s) (pending : Pending listenfd s) (within : Within s)
    (valid : Membership s) (stepped : Stepped listenfd s action next) : Membership next := by
  cases stepped with
  | peer live opened moved => exact ⟨membership_update valid opened (peer_client moved).2.2.1,valid.inside⟩
  | accepts waiting head first other below free =>
    have unarmed := (pending.backlog _ (by rw [first]; exact List.mem_cons_self)).1
    refine ⟨membership_unarmed valid ?_ unarmed,valid.inside⟩
    intro listed
    obtain ⟨d,found,_⟩ := members.registered _ listed
    cases free.symm.trans found
  | stale waiting head other gone => exact membership_drop ⟨valid.exactly,valid.inside⟩
  | overreads waiting head other opened data unprinted => exact ⟨membership_update valid opened rfl,valid.inside⟩
  | reads waiting head other opened data printed => exact ⟨membership_update valid opened rfl,valid.inside⟩
  | drops waiting head other opened ended => exact membership_drop ⟨valid.exactly,valid.inside⟩
  | registers here opened ready below => exact membership_registers valid below rfl rfl rfl
  | overindexes here opened ready large => exact absurd (within _ here) large
  | setupFails here opened unready =>
    exact ⟨membership_unarmed valid (members.unlisted _ here) rfl,valid.inside⟩
  | finishes looping outside =>
    refine ⟨?_,valid.inside⟩
    unfold credited
    split
    · exact valid.exactly
    · rename_i c opened; exact membership_update valid opened rfl
  | _ => exact ⟨valid.exactly,valid.inside⟩

theorem served_preserved (members : Members before.1) (pending : Pending listenfd before.1) (within : Within before.1)
    (served : Served before) (stepped : Stepped listenfd before.1 action next) (running : next.pc.live = true) :
    Served (next,mark before.2 before.1 action) := by
  refine ⟨running,membership_preserved members pending within served.membership stepped,?_⟩
  have delivered := served.delivered
  cases stepped with
  | connect live => exact delivered
  | pendingPeer live pending moved => exact delivered
  | peer live opened moved => exact delivered
  | acceptFails waiting head => simp [waiting]
  | stale waiting head other gone => simp [drop,waiting]
  | reads waiting head other opened data printed =>
    intro fd msg text i here
    cases here
    simp [mark]
  | drops waiting head other opened ended => simp [drop,waiting]
  | skips looping inside silent =>
    intro fd msg text i here
    cases here
    simpa [List.range_succ,silent,mark] using delivered _ _ _ _ looping
  | misses looping inside listed | refuses looping inside listed | writes looping inside listed =>
    intro fd msg text i here
    cases here
    simp [List.range_succ,listed,mark,delivered _ _ _ _ looping]
  | _ => simp

theorem answers_of_safe (pending : Pending listenfd s) (safe : RtsSafe listenfd s action) : Answers listenfd s action := by
  rintro next accepted fd rest c chunk rfl ran head other opened data
  have stepped := step_sound ran
  cases stepped with
  | reads waiting queued _ found result printed =>
    cases queued.symm.trans head
    exact ⟨_,_,rfl⟩
  | overreads waiting queued client found result unprinted =>
    have printable := safe _ _ _ _ waiting queued client found result
    rw [← rts_printable pending found result,unprinted] at printable
    cases printable
  | acceptFails waiting queued => cases queued.symm.trans head; exact absurd rfl other
  | accepts waiting queued first client small free => cases queued.symm.trans head; exact absurd rfl other
  | stale waiting queued client gone =>
    cases queued.symm.trans head
    cases gone.symm.trans opened
  | drops waiting queued client found ended =>
    cases queued.symm.trans head
    cases found.symm.trans opened
    simp [data] at ended

-- What both invariants of the table rest on.
structure Regular (listenfd : Nat) (s : State) : Prop where
  members : Members s
  pending : Pending listenfd s
  within : Within s

theorem initial_regular (listenfd : Nat) : Regular listenfd initial :=
  ⟨initial_members,initial_pending listenfd,by simp [Within,initial]⟩

theorem regular_preserved (regular : Regular listenfd s) (below : Small action) (stepped : Stepped listenfd s action next) :
    Regular listenfd next :=
  ⟨members_preserved regular.members stepped,pending_preserved regular.pending stepped,
    within_preserved regular.within below stepped⟩

theorem run_membership (small : ∀ action ∈ actions, Small action) :
    Always (step listenfd) Membership initial actions := by
  let Valid (s : State) := Regular listenfd s ∧ Membership s
  have keeps : ∀ s action next, Valid s → Small action → step listenfd s action = some next → Valid next := by
    intro s action next ⟨regular,membership⟩ below ran
    have stepped := step_sound ran
    exact ⟨regular_preserved regular below stepped,
      membership_preserved regular.members regular.pending regular.within membership stepped⟩
  have start : Valid initial := ⟨initial_regular listenfd,initial_membership⟩
  exact always_of_preserves keeps (fun s valid => valid.2) start (every_of_actions (fun action member _ => small action member) initial)

theorem served_exact {before after : State × List (Nat × Bytes)} (regular : Regular listenfd before.1) (served : Served before)
    (moved : watched (step listenfd) mark before action = some after) : Served after ↔ RtsSafe listenfd before.1 action := by
  obtain ⟨next,noted⟩ := after
  obtain ⟨ran,rfl⟩ := watched_some moved
  have stepped := step_sound ran
  have safe := rts_safe_iff regular.pending served.running stepped
  constructor
  · intro after
    exact safe.mp after.running
  · intro held
    exact served_preserved regular.members regular.pending regular.within served stepped (safe.mpr held)

theorem broadcasts_exact (small : ∀ action ∈ actions, Small action) (ran : run (step listenfd) initial actions = some s) :
    Always (watched (step listenfd) mark) Served (initial,[]) actions ↔ Every (step listenfd) (RtsSafe listenfd) initial actions := by
  obtain ⟨noted,watching⟩ : ∃ noted, run (watched (step listenfd) mark) (initial,[]) actions = some (s,noted) :=
    watched_run ran
  let Valid (p : State × List (Nat × Bytes)) := Regular listenfd p.1
  have keeps : ∀ before action after, Valid before → Small action →
      watched (step listenfd) mark before action = some after → Valid after :=
    fun before action after regular below moved => regular_preserved regular below (step_sound (watched_some moved).1)
  have start : Served (initial,[]) := ⟨rfl,initial_membership,by simp [initial]⟩
  have broadcasts := always_iff_every_allowed
    (fun _ _ _ regular below _ moved => keeps _ _ _ regular below moved)
    (fun _ _ _ regular _ served moved => served_exact regular served moved)
    (initial_regular listenfd) start (every_of_actions (fun action member _ => small action member) _) watching
  constructor
  · intro delivered
    exact watched_every.mp (broadcasts.mp delivered)
  · intro safe
    exact broadcasts.mpr (watched_every.mpr safe)

theorem membership_exact (small : ∀ action ∈ actions, Small action)
    (ran : run (step listenfd) initial actions = some s) :
    Always (step listenfd) Membership initial actions ∧
    (Always (watched (step listenfd) mark) Served (initial,[]) actions ∧
      Every (step listenfd) (Answers listenfd) initial actions ↔
    Every (step listenfd) (RtsSafe listenfd) initial actions) := by
  have broadcasts := broadcasts_exact small ran
  refine ⟨run_membership small,?_⟩
  constructor
  · intro delivered
    exact broadcasts.mp delivered.1
  · intro safe
    have pendingKept : ∀ s action next, Pending listenfd s → RtsSafe listenfd s action →
        step listenfd s action = some next → Pending listenfd next :=
      fun _ _ _ pending _ ran => pending_preserved pending (step_sound ran)
    exact ⟨broadcasts.mpr safe,
      every_of_preserves pendingKept (fun _ _ pending held => answers_of_safe pending held) (initial_pending listenfd) safe⟩

theorem small_reset : ∀ action ∈ rtsReset, Small action := by
  intro action member
  simp only [rtsReset,List.cons_append,List.nil_append,List.mem_cons,List.mem_replicate] at member
  rcases member with rfl | rfl | rfl | rfl | rfl | rfl | rfl | rfl | rfl | rfl | rfl | ⟨_,rfl⟩ <;> simp [Small,maxClients]

theorem reset_cuts_broadcast :
    (∀ action ∈ rtsReset, Small action) ∧ (run (step 3) initial rtsReset).map (·.calls) = some [] ∧
    ¬ (Always (watched (step 3) mark) Served (initial,[]) rtsReset ∧
      Every (step 3) (Answers 3) initial rtsReset) := by
  refine ⟨small_reset,by decide +kernel,?_⟩
  intro ⟨always,_⟩
  obtain ⟨s,ran,ended⟩ := Option.map_eq_some_iff.mp rtsReset_ends
  obtain ⟨noted,watching⟩ : ∃ noted, run (watched (step 3) mark) (initial,[]) rtsReset = some (s,noted) :=
    watched_run ran
  have running := (always_last always watching).running
  rw [ended] at running; cases running

theorem membership_exact_unbroken :
    Always (step 3) Membership initial (rtsReset.take 9) ∧
    (Always (watched (step 3) mark) Served (initial,[]) (rtsReset.take 9) ∧
      Every (step 3) (Answers 3) initial (rtsReset.take 9) ↔
    Every (step 3) (RtsSafe 3) initial (rtsReset.take 9)) := by
  have ends : (run (step 3) initial (rtsReset.take 9)).isSome := by decide +kernel
  obtain ⟨s,ran⟩ := Option.isSome_iff_exists.mp ends
  exact membership_exact (fun action member => small_reset action (List.mem_of_mem_take member)) ran

end NetworkEx.RtsMembership
