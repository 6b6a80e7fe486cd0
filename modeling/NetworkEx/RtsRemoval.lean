import Mathlib.Data.List.Nodup
import NetworkEx.RtsChat

namespace NetworkEx.RtsRemoval
open ByteStreams ChatSockets TransitionRuns RtsChat

-- What a step may take out of user_fds or close: only a connection whose peer
-- has closed it or which has failed.
def RemovesOnlyGone (listenfd : Nat) (s : State) (action : Action) : Prop :=
  ∀ next, step listenfd s action = some next → ∀ fd,
    (s.userFds fd = 1 ∧ next.userFds fd ≠ 1) ∨ (s.conns fd ≠ none ∧ next.conns fd = none) →
      ∃ c, s.conns fd = some c ∧ (c.closed = true ∨ c.failed = true)

-- The signal taken is not for a client with nothing to read and no sign of an
-- end, where a non-blocking read answers EAGAIN.
def TakesNoIdle (listenfd : Nat) (s : State) : Action → Prop
  | .take _ => s.pc = .wait → ∀ fd rest c, s.signals = fd :: rest → fd ≠ listenfd →
      s.conns fd = some c → ¬ (c.toConn.idle = true ∧ c.nonblock = true)
  | _ => True

theorem removal_cases (valid : Members s) (stepped : Stepped listenfd s action next)
    (removed : (s.userFds fd = 1 ∧ next.userFds fd ≠ 1) ∨ (s.conns fd ≠ none ∧ next.conns fd = none)) :
    ∃ accepted rest c, action = .take accepted ∧ s.pc = .wait ∧ s.signals = fd :: rest ∧ fd ≠ listenfd ∧
      s.conns fd = some c ∧ (c.read = .error ∨ c.read = .eof ∨ (c.read = .again ∧ c.nonblock = true)) := by
  have replaced : ∀ {at_ : Nat} {c : Client}, ¬ (s.conns fd ≠ none ∧ Function.update s.conns at_ (some c) fd = none) := by
    intro at_ c
    by_cases equal : fd = at_
    · subst equal; simp
    · simp [Function.update_of_ne equal]
  cases stepped with
  | connect live => simp at removed
  | pendingPeer live pending moved => simp at removed
  | peer live opened moved => exact absurd removed (by simp [replaced])
  | setupListener starting => simp at removed
  | acceptFails waiting head => simp at removed
  | accepts waiting head first other small free => exact absurd removed (by simp [replaced])
  | stale waiting head other gone =>
    rename_i at_ rest accepted
    by_cases equal : fd = at_
    · subst equal
      rcases removed with ⟨listed,_⟩ | ⟨opened,_⟩
      · obtain ⟨c,found,_⟩ := valid.registered fd listed
        cases gone.symm.trans found
      · exact absurd gone opened
    · simp [drop,Function.update_of_ne equal] at removed
  | overreads waiting head other opened data unprinted => exact absurd removed (by simp [replaced])
  | reads waiting head other opened data printed => exact absurd removed (by simp [replaced])
  | drops waiting head other opened ended =>
    rename_i at_ rest c accepted
    by_cases equal : fd = at_
    · subst equal; exact ⟨accepted,rest,c,rfl,waiting,head,other,opened,ended⟩
    · simp [drop,Function.update_of_ne equal] at removed
  | registers here opened ready small =>
    rename_i c answers at_
    by_cases equal : fd = at_
    · subst equal; simp at removed
    · simp [Function.update_of_ne equal] at removed
  | overindexes here opened ready large => exact absurd removed (by simp [replaced])
  | setupFails here opened unready => exact absurd removed (by simp [replaced])
  | skips | misses | refuses | breaks | writes => simp at removed
  | finishes looping outside =>
    unfold credited at removed
    split at removed
    · simp at removed
    · exact absurd removed (by simp [replaced])

theorem removes_only_gone_iff (valid : Members s) (action : Action) :
    RemovesOnlyGone listenfd s action ↔ TakesNoIdle listenfd s action := by
  constructor
  · intro kept
    cases action with
    | take accepted =>
      intro waiting fd rest c head other opened ⟨idle,nonblock⟩
      have again := (read_again_iff c.toConn).mpr idle
      have stepped : Stepped listenfd s (.take accepted) (drop {s with signals := rest} fd) :=
        .drops waiting head other opened (.inr (.inr ⟨again,nonblock⟩))
      have ran := step_complete stepped
      obtain ⟨d,found,gone⟩ := kept _ ran fd (.inr ⟨by simp [opened],by simp [drop]⟩)
      cases opened.symm.trans found
      simp only [Conn.idle,Bool.and_eq_true,Bool.not_eq_true'] at idle
      rcases gone with closed | failed
      · rw [idle.1.2] at closed; cases closed
      · rw [idle.2] at failed; cases failed
    | _ => trivial
  · intro busy next ran fd removed
    obtain ⟨accepted,rest,c,rfl,waiting,head,other,opened,ended⟩ := removal_cases valid (step_sound ran) removed
    refine ⟨c,opened,?_⟩
    rcases ended with failed | eof | ⟨again,nonblock⟩
    · exact read_gone (.inl failed)
    · exact read_gone (.inr eof)
    · exact absurd ⟨(read_again_iff _).mp again,nonblock⟩ (busy waiting fd rest c head other opened)

-- In a whole run nobody still connected is removed exactly when no signal is
-- taken for an idle client.
theorem removal_exact (listenfd : Nat) (actions : List Action) :
    Every (step listenfd) (RemovesOnlyGone listenfd) initial actions ↔
      Every (step listenfd) (TakesNoIdle listenfd) initial actions :=
  every_congr (fun _ _ _ valid ran => members_preserved valid (step_sound ran))
    (fun _ action valid => removes_only_gone_iff valid action) initial_members

def twoMessages : List Action :=
  [.setupListener answered,.connect,.take (some 4),.setupClient answered,
    .peer 4 (.data [104]),.peer 4 (.data [105]),.take none] ++ turns (fun _ => .took 16) 0 1025

theorem twoMessages_read : ∃ s text, run (step 3) initial (twoMessages.take 7) = some s ∧
    s.pc = .broadcast 4 [104,105] text 0 ∧ text.length = 16 ∧ s.userFds = Function.update (fun _ => 0) 4 1 ∧
    (∃ c, s.conns 4 = some c ∧ c.closed = false ∧ c.failed = false) ∧
    ∀ calls writes, (step 3 {s with
      pc := .wait,conns := credited s.conns 4 [104,105],calls := calls,writes := writes} (.take none)).map
      (fun s => (s.userFds 4,(s.conns 4).isNone)) = some (0,true) :=
  ⟨_,_,rfl,rfl,by decide,rfl,⟨_,rfl,rfl,rfl⟩,fun _ _ => rfl⟩

theorem twoMessages_ends : ∃ s, run (step 3) initial twoMessages = some s ∧ s.userFds 4 = 1 ∧
    (∃ c, s.conns 4 = some c ∧ c.closed = false ∧ c.failed = false) ∧
    (step 3 s (.take none)).map (fun s => (s.userFds 4,(s.conns 4).isNone)) = some (0,true) := by
  obtain ⟨s,text,ran,looping,long,table,⟨c,opened,closed,well⟩,dropped⟩ := twoMessages_read
  have takes : Takes s (fun _ => .took 16) text.length := by
    intro k d _ member found
    by_cases other : k = 4
    · rw [other,opened] at found
      cases found
      exact ⟨well,by rw [long]⟩
    · rw [table,Function.update_of_ne other] at member
      cases member
  have sent : run (step 3) s (turns (fun _ => .took 16) 0 (maxClients + 1)) = _ :=
    sendChatMsg_run takes looping (Nat.zero_add maxClients)
  have split : twoMessages = twoMessages.take 7 ++ turns (fun _ => .took 16) 0 (maxClients + 1) := by
    have turns : maxClients + 1 = 1025 := rfl
    rw [turns,twoMessages,List.take_append_of_le_length (by decide)]
    rfl
  rw [split,run_append,ran,Option.bind_some,sent]
  refine ⟨_,rfl,?_,?_,dropped _ _⟩
  · simp [table]
  · refine ⟨{c with relayed := c.relayed ++ [104,105]},?_,closed,well⟩
    simp [credited,opened]

theorem connected_client_removed :
    ¬ Every (step 3) (RemovesOnlyGone 3) initial (twoMessages ++ [.take none]) := by
  intro all
  obtain ⟨s,ran,listed,⟨c,opened,closed,well⟩,dropped⟩ := twoMessages_ends
  obtain ⟨next,last,after⟩ := Option.map_eq_some_iff.mp dropped
  simp only [Prod.mk.injEq] at after
  obtain ⟨d,found,gone⟩ := (every_append all ran).2.1 next last 4 (.inl ⟨listed,by simp [after.1]⟩)
  cases opened.symm.trans found
  rcases gone with ended | failed
  · rw [closed] at ended; cases ended
  · rw [well] at failed; cases failed

-- An environment that leaves main time: a client's socket changes, and a number
-- is given out again, only while no signal of that number is queued.
def Paced (s : State) : Action → Prop
  | .peer fd _ => fd ∉ s.signals
  | .take (some fd) => fd ∉ s.signals.tail
  | _ => True

-- Then every queued signal of a client still has something to be read for.
structure Awake (listenfd : Nat) (s : State) : Prop where
  single : (s.signals.filter fun fd => decide (fd ≠ listenfd)).Nodup
  busy : ∀ fd ∈ s.signals, fd ≠ listenfd → ∀ c, s.conns fd = some c → c.toConn.idle = false
  unsignalled : ∀ fd, s.pc = .accepted fd → fd ∉ s.signals

theorem initial_awake (listenfd : Nat) : Awake listenfd initial :=
  ⟨by simp [initial],by simp [initial],by simp [initial]⟩

theorem busy_elsewhere {signals : List Nat} (valid : Awake listenfd s) (unnamed : fd ∉ signals) (fewer : ∀ k ∈ signals, k ∈ s.signals)
    (changed : Option Client) : ∀ k ∈ signals, k ≠ listenfd → ∀ c,
      Function.update s.conns fd changed k = some c → c.toConn.idle = false := by
  intro k queued client c found
  have different : k ≠ fd := by rintro rfl; exact unnamed queued
  rw [Function.update_of_ne different] at found
  exact valid.busy k (fewer k queued) client c found

theorem take_client (valid : Awake listenfd s) (head : s.signals = fd :: rest) (other : fd ≠ listenfd) :
    fd ∉ rest ∧ (rest.filter fun fd => decide (fd ≠ listenfd)).Nodup := by
  have single := valid.single
  rw [head,List.filter_cons_of_pos (by simpa using other),List.nodup_cons] at single
  refine ⟨fun queued => single.1 ?_,single.2⟩
  exact List.mem_filter.mpr ⟨queued,by simpa using other⟩

theorem awake_taken (valid : Awake listenfd s) (head : s.signals = fd :: rest) (other : fd ≠ listenfd)
    (elsewhere : ∀ k, next.pc ≠ .accepted k) (queued : next.signals = rest)
    (changed : next.conns = Function.update s.conns fd replacement) : Awake listenfd next := by
  obtain ⟨unnamed,single⟩ := take_client valid head other
  refine ⟨by rwa [queued],?_,fun k here => absurd here (elsewhere k)⟩
  rw [queued,changed]
  exact busy_elsewhere valid unnamed (fun k later => by rw [head]; exact List.mem_cons_of_mem _ later) replacement

theorem awake_setup (valid : Awake listenfd s) (here : s.pc = .accepted fd) (elsewhere : ∀ k, next.pc ≠ .accepted k)
    (queued : next.signals = s.signals) (changed : next.conns = Function.update s.conns fd replacement) :
    Awake listenfd next := by
  refine ⟨by rw [queued]; exact valid.single,?_,fun k there => absurd there (elsewhere k)⟩
  rw [queued,changed]
  exact busy_elsewhere valid (valid.unsignalled fd here) (fun _ later => later) replacement

theorem mem_raised : k ∈ raised armed fd ↔ armed = true ∧ k = fd := by
  cases armed <;> simp [raised]

theorem single_raised (valid : Awake listenfd s) (unnamed : fd = listenfd ∨ fd ∉ s.signals) (armed : Bool) :
    ((s.signals ++ raised armed fd).filter fun fd => decide (fd ≠ listenfd)).Nodup := by
  rw [List.filter_append,List.nodup_append]
  refine ⟨valid.single,?_,?_⟩
  · cases armed
    · simp [raised]
    · exact List.Nodup.filter _ (List.nodup_singleton fd)
  · rintro old before new after rfl
    obtain ⟨fresh,client⟩ := List.mem_filter.mp after
    rw [(mem_raised.mp fresh).2] at before client
    rcases unnamed with listener | unnamed
    · simp [listener] at client
    · exact unnamed (List.mem_filter.mp before).1

theorem awake_connect (valid : Awake listenfd s) (pending : Pending listenfd s) :
    Awake listenfd {s with backlog := backlog,signals := s.signals ++ raised s.listenArmed listenfd} := by
  refine ⟨single_raised valid (.inl rfl) _,?_,?_⟩
  · intro k queued client
    rcases List.mem_append.mp queued with old | new
    · exact valid.busy k old client
    · exact absurd (mem_raised.mp new).2 client
  · intro fd here queued
    obtain ⟨c,opened,_⟩ := pending.accepted fd here
    rcases List.mem_append.mp queued with old | new
    · exact valid.unsignalled fd here old
    · exact (pending.apart fd (by simp [opened])).1 (mem_raised.mp new).2

theorem awake_peer (valid : Awake listenfd s) (pending : Pending listenfd s) (quiet : fd ∉ s.signals)
    (opened : s.conns fd = some c) (moved : c.peer event = some next) :
    Awake listenfd {s with
      conns := Function.update s.conns fd (some next),signals := s.signals ++ raised c.armed fd} := by
  refine ⟨single_raised valid (.inr quiet) _,?_,?_⟩
  · intro k queued client d found
    rcases List.mem_append.mp queued with old | new
    · exact busy_elsewhere valid quiet (fun _ member => member) _ k old client d found
    · simp only [(mem_raised.mp new).2,Function.update_self,Option.some.injEq] at found
      subst found
      exact peer_busy (peer_client moved).1
  · intro k here queued
    obtain ⟨d,accepted,untouched⟩ := pending.accepted k here
    rcases List.mem_append.mp queued with old | new
    · exact valid.unsignalled k here old
    · obtain ⟨armed,rfl⟩ := mem_raised.mp new
      cases opened.symm.trans accepted
      rw [untouched.1] at armed; cases armed

theorem awake_credited (valid : Awake listenfd s) (fd : Nat) (msg : Bytes) :
    Awake listenfd {s with pc := .wait,conns := credited s.conns fd msg} := by
  refine ⟨valid.single,?_,by simp⟩
  intro k queued client c found
  obtain ⟨d,opened,rfl⟩ := credited_parts found
  exact valid.busy k queued client d opened

theorem awake_preserved (valid : Awake listenfd s) (pending : Pending listenfd s) (paced : Paced s action)
    (stepped : Stepped listenfd s action next) : Awake listenfd next := by
  cases stepped with
  | connect live => exact awake_connect valid pending
  | pendingPeer live waiting moved => exact ⟨valid.single,valid.busy,valid.unsignalled⟩
  | peer live opened moved => exact awake_peer valid pending paced opened moved
  | setupListener starting => exact ⟨valid.single,valid.busy,by simp⟩
  | acceptFails waiting head =>
    refine ⟨?_,fun k later => valid.busy k (by rw [head]; exact List.mem_cons_of_mem _ later),by simp [waiting]⟩
    have single := valid.single
    rwa [head,List.filter_cons_of_neg (by simp)] at single
  | accepts waiting head first other small free =>
    rename_i rest c later fd
    have quiet : fd ∉ rest := by simpa [Paced,head] using paced
    refine ⟨?_,?_,?_⟩
    · have single := valid.single
      rwa [head,List.filter_cons_of_neg (by simp)] at single
    · exact busy_elsewhere valid quiet (fun k later => by rw [head]; exact List.mem_cons_of_mem _ later) _
    · intro known here
      cases here; exact quiet
  | stale waiting head other gone => exact awake_taken valid head other (by simp [drop,waiting]) rfl rfl
  | overreads waiting head other opened data unprinted => exact awake_taken valid head other (by simp) rfl rfl
  | reads waiting head other opened data printed => exact awake_taken valid head other (by simp) rfl rfl
  | drops waiting head other opened ended => exact awake_taken valid head other (by simp [drop,waiting]) rfl rfl
  | registers here opened ready small => exact awake_setup valid here (by simp) rfl rfl
  | overindexes here opened ready large => exact awake_setup valid here (by simp) rfl rfl
  | setupFails here opened unready => exact awake_setup valid here (by simp) rfl rfl
  | skips | misses | refuses | breaks | writes => exact ⟨valid.single,valid.busy,by simp⟩
  | finishes looping outside => exact awake_credited valid _ _

theorem paced_run_removes_only_gone (paced : Every (step listenfd) Paced initial actions) :
    Every (step listenfd) (RemovesOnlyGone listenfd) initial actions := by
  let inv := fun s => Awake listenfd s ∧ Pending listenfd s ∧ Members s
  have start : inv initial := ⟨initial_awake listenfd,initial_pending listenfd,initial_members⟩
  have keeps : ∀ s action next, inv s → Paced s action → step listenfd s action = some next → inv next := by
    rintro s action next ⟨awake,pending,members⟩ paced ran
    have stepped := step_sound ran
    exact ⟨awake_preserved awake pending paced stepped,pending_preserved pending stepped,members_preserved members stepped⟩
  refine every_of_preserves keeps ?_ start paced
  rintro s action ⟨awake,pending,members⟩ _
  refine (removes_only_gone_iff members action).mpr ?_
  cases action with
  | take accepted =>
    intro waiting fd rest c head other opened ⟨idle,_⟩
    rw [awake.busy fd (by simp [head]) other c opened] at idle
    cases idle
  | _ => trivial

end NetworkEx.RtsRemoval
