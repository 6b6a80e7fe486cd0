import NetworkEx.RtsChat

namespace NetworkEx.RtsArming
open ChatSockets TransitionRuns RtsChat

-- The end of make_listener. Both results of setup_sigio are true to its if.
def makeListener (listenfd : Nat) (answers : Fcntl) : Int := if setupSigio answers ≠ 0 then listenfd else -1

-- make_connected_fd after its accept.
def makeConnectedFd (sockfd : Nat) (answers : Fcntl) : Int := if setupSigio answers = -1 then -1 else sockfd

def Succeeds (_ : State) : Action → Prop
  | .setupListener answers | .setupClient answers =>
    answers.setfl = true ∧ answers.setsig = true ∧ answers.setown = true
  | _ => True

-- What main's event loop relies on. The descriptor that make_connected_fd has
-- accepted and is still setting up is not one of its descriptors yet.
structure Armed (s : State) : Prop where
  listener : s.pc ≠ .setup → s.listenArmed = true
  clients : ∀ fd c, s.conns fd = some c → s.pc ≠ .accepted fd → c.armed = true

-- A failed set-up makes its caller return the -1 that main reports, and what
-- was being set up is closed: the listener as main returns, a client at once.
def Cleaned (listenfd : Nat) (s : State) : Action → Prop
  | .setupListener answers => ¬ Succeeds s (.setupListener answers) →
      makeListener listenfd answers = -1 ∧
      ∀ next, step listenfd s (.setupListener answers) = some next → next.pc = .killed
  | .setupClient answers => ¬ Succeeds s (.setupClient answers) →
      ∀ fd, s.pc = .accepted fd → makeConnectedFd fd answers = -1 ∧
      ∀ next, step listenfd s (.setupClient answers) = some next → next.conns fd = none
  | _ => True

theorem setupSigio_succeeds (answers : Fcntl) :
    setupSigio answers = 1 ↔ answers.setfl = true ∧ answers.setsig = true ∧ answers.setown = true := by
  unfold setupSigio
  cases answers.setfl <;> cases answers.setsig <;> cases answers.setown <;> decide

theorem setupSigio_nonzero (answers : Fcntl) : setupSigio answers ≠ 0 := by
  unfold setupSigio
  cases answers.setfl <;> cases answers.setsig <;> cases answers.setown <;> decide

-- main's test for -1 never sees one, whatever fcntl answered.
theorem listener_unreported (listenfd : Nat) (answers : Fcntl) : makeListener listenfd answers ≠ -1 := by
  rw [makeListener,if_pos (setupSigio_nonzero answers)]
  omega

theorem initial_armed : Armed initial := ⟨fun running => absurd rfl running,by simp [initial]⟩

theorem armed_update {conns : Nat → Option Client} (armed : ∀ other d, conns other = some d → other ≠ fd → d.armed = true)
    (ready : c.armed = true) : ∀ other d, Function.update conns fd (some c) other = some d → d.armed = true := by
  intro other d found
  rcases update_found found with ⟨_,rfl⟩ | ⟨different,old⟩
  · exact ready
  · exact armed other d old different

theorem armed_drop (armed : Armed s) (waiting : s.pc = .wait) : Armed (drop s fd) := by
  refine ⟨armed.listener,?_⟩
  intro other c found _
  exact armed.clients other c (clear_found found).2 (by simp [waiting])

theorem armed_open (armed : Armed s) (away : ∀ fd, s.pc ≠ .accepted fd) :
    ∀ other d, s.conns other = some d → other ≠ fd → d.armed = true :=
  fun other d found _ => armed.clients other d found (away other)

theorem armed_reads (armed : Armed s) (waiting : s.pc = .wait) (opened : s.conns fd = some c)
    (found : Function.update s.conns fd (some next) known = some d) (same : next.armed = c.armed) : d.armed = true := by
  have away : ∀ other, s.pc ≠ .accepted other := by simp [waiting]
  exact armed_update (armed_open armed away) (same.trans (armed.clients fd c opened (away fd))) known d found

theorem armed_others (armed : Armed s) (here : s.pc = .accepted fd) :
    ∀ other d, s.conns other = some d → other ≠ fd → d.armed = true := by
  intro other d found different
  apply armed.clients other d found
  intro same
  cases here.symm.trans same
  exact different rfl

theorem armed_peer (armed : Armed s) (opened : s.conns fd = some c) (same : next.armed = c.armed) :
    ∀ other d, Function.update s.conns fd (some next) other = some d → s.pc ≠ .accepted other → d.armed = true := by
  intro other d found open_
  rcases update_found found with ⟨rfl,rfl⟩ | ⟨_,old⟩
  · exact same.trans (armed.clients other c opened open_)
  · exact armed.clients other d old open_

theorem credited_armed {conns : Nat → Option Client} (armed : ∀ fd c, conns fd = some c → c.armed = true) (found : credited conns fd msg k = some c) :
    c.armed = true := by
  obtain ⟨d,opened,rfl⟩ := credited_parts found
  exact armed k d opened

theorem armed_step (armed : Armed s) (stepped : Stepped listenfd s action next) : Armed next ↔ Succeeds s action := by
  cases stepped with
  | connect live => exact iff_of_true ⟨armed.listener,armed.clients⟩ trivial
  | pendingPeer live pending moved => exact iff_of_true ⟨armed.listener,armed.clients⟩ trivial
  | peer live opened moved =>
    exact iff_of_true ⟨armed.listener,armed_peer armed opened (peer_client moved).2.2.1⟩ trivial
  | setupListener starting =>
    rename_i answers
    simp only [Succeeds,← setupSigio_succeeds]
    constructor
    · intro after
      simpa using after.listener (by simp)
    · intro ready
      refine ⟨by simp [ready],?_⟩
      intro fd c found _
      exact armed.clients fd c found (by simp [starting])
  | acceptFails waiting head => exact iff_of_true ⟨armed.listener,armed.clients⟩ trivial
  | accepts waiting head first other small free =>
    rename_i rest c later fd
    refine iff_of_true ⟨fun _ => armed.listener (by simp [waiting]),?_⟩ trivial
    intro known d found away
    have different : known ≠ fd := by
      intro equal
      exact away (by rw [equal])
    simp only [Function.update_of_ne different] at found
    exact armed.clients known d found (by simp [waiting])
  | stale waiting head other gone =>
    exact iff_of_true (armed_drop ⟨armed.listener,armed.clients⟩ waiting) trivial
  | overreads waiting head other opened | reads waiting head other opened =>
    refine iff_of_true ⟨fun _ => armed.listener (by simp [waiting]),?_⟩ trivial
    exact fun known d found _ => armed_reads armed waiting opened found rfl
  | drops waiting head other opened ended =>
    exact iff_of_true (armed_drop ⟨armed.listener,armed.clients⟩ waiting) trivial
  | registers here opened ready | overindexes here opened ready =>
    refine iff_of_true ⟨fun _ => armed.listener (by simp [here]),?_⟩ ((setupSigio_succeeds _).mp ready)
    exact fun known d found _ => armed_update (armed_others armed here) rfl known d found
  | setupFails here opened unready =>
    rename_i c answers fd
    refine iff_of_false ?_ (fun succeeds => unready ((setupSigio_succeeds _).mpr succeeds))
    intro after
    have ready := after.clients fd _ (Function.update_self ..) (by simp)
    cases ready
  | skips looping | misses looping | refuses looping | breaks looping | writes looping =>
    refine iff_of_true ⟨fun _ => armed.listener (by simp [looping]),?_⟩ trivial
    exact fun fd c found _ => armed.clients fd c found (by simp [looping])
  | finishes looping outside =>
    refine iff_of_true ⟨fun _ => armed.listener (by simp [looping]),?_⟩ trivial
    exact fun fd c found _ => credited_armed (fun k d opened => armed.clients k d opened (by simp [looping])) found

theorem cleaned_step (ran : step listenfd s action = some next) :
    Cleaned listenfd s action ↔ Succeeds s action := by
  have stepped := step_sound ran
  cases stepped with
  | setupListener starting =>
    constructor
    · intro cleaned
      by_contra failed
      exact listener_unreported _ _ (cleaned failed).1
    · exact fun succeeds failed => absurd succeeds failed
  | registers here opened ready | overindexes here opened ready =>
    have succeeds := (setupSigio_succeeds _).mp ready
    exact iff_of_true (fun failed => absurd succeeds failed) succeeds
  | setupFails here opened unready =>
    have failed : ¬ Succeeds s (.setupClient _) := fun succeeds => unready ((setupSigio_succeeds _).mpr succeeds)
    refine iff_of_false ?_ failed
    intro cleaned
    have closed := (cleaned failed _ here).2 _ ran
    simp at closed
  | _ => exact Iff.rfl

theorem arming_exact (ran : run (step listenfd) initial actions = some s) :
    (Always (step listenfd) Armed initial actions ↔ Every (step listenfd) Succeeds initial actions) ∧
    (Every (step listenfd) (Cleaned listenfd) initial actions ↔ Every (step listenfd) Succeeds initial actions) := by
  constructor
  · let whatever : State → Prop := fun _ => True
    have keeps : ∀ s action next, whatever s → Succeeds s action → step listenfd s action = some next → whatever next :=
      fun _ _ _ _ _ _ => trivial
    apply always_iff_every keeps _ trivial initial_armed ran
    intro s action next _ armed moved
    exact armed_step armed (step_sound moved)
  · apply every_congr_along _ ran
    intro s action next moved
    exact cleaned_step moved

def listenerFails : List Action := [.setupListener ⟨true,false,true⟩]
def clientFails : List Action := [.setupListener answered,.connect,.take (some 4),.setupClient ⟨true,false,true⟩]

theorem arming_exact_client_fails :
    (Always (step 3) Armed initial clientFails ↔ Every (step 3) Succeeds initial clientFails) ∧
    (Every (step 3) (Cleaned 3) initial clientFails ↔ Every (step 3) Succeeds initial clientFails) := by
  have ends : (run (step 3) initial clientFails).isSome := by decide +kernel
  obtain ⟨s,ran⟩ := Option.isSome_iff_exists.mp ends
  exact arming_exact ran

theorem unarmed_descriptors :
    ¬ Always (step 3) Armed initial listenerFails ∧ makeListener 3 ⟨true,false,true⟩ = 3 ∧
    ¬ Always (step 3) Armed initial clientFails ∧ makeConnectedFd 4 ⟨true,false,true⟩ = -1 ∧
    ¬ Every (step 3) (Cleaned 3) initial clientFails := by
  refine ⟨?_,by decide,?_,by decide,?_⟩
  · intro all
    have armed := (all 1 _ rfl).listener (by decide)
    cases armed
  · intro all
    have armed := (all 4 _ rfl).clients 4 _ rfl (by decide)
    cases armed
  · intro all
    have unset : ∀ s, ¬ Succeeds s (.setupClient ⟨true,false,true⟩) := by simp [Succeeds]
    have cleaned := (((all.2 _ rfl).2 _ rfl).2 _ rfl).1
    have closed := (cleaned (unset _) 4 rfl).2 _ rfl
    cases closed

end NetworkEx.RtsArming
