import NetworkEx.ChatRoom
import NetworkEx.RtsOrder

namespace NetworkEx.RtsRoom
open ByteStreams CText ChatSockets TransitionRuns GroupBroadcast ChatRoom RtsOrder
open RtsChat (Members Stepped step_sound chatText)
open RtsFidelity (greeting chatText_parts)

def view (s : RtsChat.State) : View :=
  ⟨s.backlog.map RtsChat.Client.toConn,fun fd => (s.conns fd).map RtsChat.Client.toConn,s.writes⟩

def mains : RtsChat.Action → Bool
  | .connect | .pendingPeer .. | .peer .. => false
  | _ => true

def roomy (listenfd : Nat) (s : RtsChat.State) (action : RtsChat.Action) : Option RtsChat.State :=
  if takesAll s action then RtsChat.step listenfd s action else none

theorem roomy_parts (ran : roomy listenfd s action = some next) : takesAll s action = true ∧ Stepped listenfd s action next := by
  obtain ⟨takes,moved⟩ := Option.ite_none_right_eq_some.mp ran
  exact ⟨takes,step_sound moved⟩

theorem roomy_relay (listenfd : Nat) :
    Relay (roomy listenfd) Kept (fun s => s.pc.live = true) (published listenfd) got owed where
  kept _ _ _ kept ran := kept_preserved kept (roomy_parts ran).1 (roomy_parts ran).2
  running _ _ _ ran := stepped_live (roomy_parts ran).2
  relays s action next kept ran live i := by
    have after := kept_preserved kept (roomy_parts ran).1 (roomy_parts ran).2
    rw [got_called kept,got_called after]
    exact relays_step kept.members (roomy_parts ran).2 live i
  halts s action next kept ran dead := by
    have after := kept_preserved kept (roomy_parts ran).1 (roomy_parts ran).2
    rw [got_called kept,got_called after]
    exact halts_step (roomy_parts ran).2 dead

def service (listenfd : Nat) : Service RtsChat.State RtsChat.Action where
  step := roomy listenfd
  start := RtsChat.initial
  view := view
  live s := s.pc.live
  mains := mains
  connect := .connect
  pendingPeer := .pendingPeer
  peer := .peer
  reads := readOf listenfd
  text fd chunk := (chatText fd chunk).map Prod.snd
  shape fd chunk := greeting fd (untilNul chunk)
  member := member
  owed := owed

theorem published_service (listenfd : Nat) : (service listenfd).published = published listenfd := by
  funext s action
  simp only [Service.published,service,published,Option.map_map]
  rfl

theorem view_change (s : RtsChat.State) (fd : Nat) (next : Option RtsChat.Client) :
    (fun k => (Function.update s.conns fd next k).map RtsChat.Client.toConn) =
      Function.update (view s).conns fd (next.map RtsChat.Client.toConn) := by
  funext k
  by_cases equal : k = fd
  · simp [equal]
  · simp [view,equal]

theorem view_same (opened : s.conns fd = some c) (same : next.toConn = c.toConn) :
    (fun k => (Function.update s.conns fd (some next) k).map RtsChat.Client.toConn) = (view s).conns := by
  rw [view_change,Option.map_some,same,Function.update_eq_self_iff]
  simp [view,opened]

theorem credited_same (s : RtsChat.State) (fd : Nat) (msg : Bytes) :
    (fun k => (RtsChat.credited s.conns fd msg k).map RtsChat.Client.toConn) = (view s).conns := by
  cases opened : s.conns fd with
  | none => simp only [RtsChat.credited,opened,view]
  | some c =>
    simp only [RtsChat.credited,opened]
    exact view_same opened rfl

theorem view_opened (opened : s.conns fd = some c) : (view s).conns fd = some c.toConn := by simp [view,opened]

theorem change_of (change : Change (view s) input after) (backlog : (view next).backlog = after.backlog)
    (conns : (view next).conns = after.conns) (writes : (view next).writes = after.writes) : Change (view s) input (view next) := by
  obtain ⟨b,f,w⟩ := after
  cases backlog
  cases conns
  cases writes
  exact change

theorem change_stepped (stepped : Stepped listenfd s action next) (main : mains action = true) :
    Change (view s) (readOf listenfd s action) (view next) := by
  cases stepped with
  | connect | pendingPeer | peer => cases main
  | setupListener starting => exact .quiet
  | acceptFails waiting head =>
    rw [readOf_quiet waiting head (.inl rfl)]
    exact .quiet
  | accepts waiting head first other small free =>
    rename_i rest c later fd
    have pending : (view s).backlog = c.toConn :: later.map RtsChat.Client.toConn := by simp [view,first]
    rw [readOf_quiet waiting head (.inl rfl)]
    exact change_of (.accepts pending (by simp [view,free])) rfl (view_change s fd (some c)) rfl
  | stale waiting head other gone =>
    rename_i fd rest accepted
    rw [readOf_quiet waiting head (.inr (.inl gone))]
    exact change_of (.closes fd) rfl (view_change s fd none) rfl
  | overreads waiting head other opened data unprinted | reads waiting head other opened data printed =>
    rw [readOf_reads waiting head other opened data]
    exact change_of (.reads (view_opened opened) data) rfl (view_change s _ (some _)) rfl
  | drops waiting head other opened ended =>
    rename_i fd rest c accepted
    rw [readOf_drops waiting head opened ended]
    exact change_of (.closes fd) rfl (view_change s fd none) rfl
  | registers here opened ready small | overindexes here opened ready large | setupFails here opened unready =>
    exact change_of .quiet rfl (view_same opened rfl) rfl
  | skips | misses | refuses | breaks => exact .quiet
  | writes => exact .writes _ _
  | finishes looping outside => exact change_of .quiet rfl (credited_same s _ _) rfl

-- Main opens and closes descriptors at its wait only.
theorem between_stepped (stepped : Stepped listenfd s action next)
    (changed : ((view s).conns fd).isSome ≠ ((view next).conns fd).isSome) (k : Nat) : owed next k = [] := by
  cases stepped with
  | accepts | setupListener | registers | overindexes | setupFails | overreads | breaks | finishes => rfl
  | stale waiting | drops waiting => simp [owed,RtsChat.drop,waiting]
  | connect | pendingPeer | acceptFails | skips | misses | refuses | writes => exact absurd rfl changed
  | peer live opened moved | reads waiting head other opened data printed =>
    refine absurd ?_ changed
    simp only [view,Option.isSome_map]
    exact (isSome_change opened _ fd).symm

theorem printed_stepped (stepped : Stepped listenfd s action next) (read : readOf listenfd s action = some (fd,chunk))
    (live : next.pc.live = true) : (chatText fd chunk).isSome := by
  cases stepped with
  | connect | pendingPeer | peer | setupListener | registers | overindexes | setupFails | skips | misses | refuses | breaks | writes | finishes => cases read
  | acceptFails waiting head | accepts waiting head =>
    rw [readOf_quiet waiting head (.inl rfl)] at read
    cases read
  | stale waiting head other gone =>
    rw [readOf_quiet waiting head (.inr (.inl gone))] at read
    cases read
  | overreads => cases live
  | reads waiting head other opened data printed =>
    rw [readOf_reads waiting head other opened data] at read
    cases read
    rw [printed]
    rfl
  | drops waiting head other opened ended =>
    rw [readOf_drops waiting head opened ended] at read
    cases read

theorem chatText_shaped (printed : (chatText fd chunk).map Prod.snd = some text) : text = greeting fd (untilNul chunk) := by
  obtain ⟨⟨msg,_⟩,made,rfl⟩ := Option.map_eq_some_iff.mp printed
  obtain ⟨isString,shown,_⟩ := chatText_parts made
  rwa [received_untilNul isString] at shown

theorem connect_view (stepped : Stepped listenfd s .connect next) :
    view next = {view s with backlog := (view s).backlog ++ [Conn.fresh]} := by
  cases stepped with
  | connect live =>
    simp only [view,List.map_append]
    rfl

theorem pending_view (stepped : Stepped listenfd s (.pendingPeer k event) next) : ∃ c d,
    (view s).backlog[k]? = some c ∧ Conn.peer c event = some d ∧ view next = {view s with backlog := (view s).backlog.set k d} := by
  cases stepped with
  | pendingPeer live pending moved =>
    exact ⟨_,_,by simp [view,pending],(RtsChat.peer_client moved).1,by simp [view,List.map_set]⟩

theorem peer_view (stepped : Stepped listenfd s (.peer fd event) next) : ∃ c d,
    (view s).conns fd = some c ∧ Conn.peer c event = some d ∧
      view next = {view s with conns := Function.update (view s).conns fd (some d)} := by
  cases stepped with
  | peer live opened moved =>
    rename_i c changed
    refine ⟨_,_,view_opened opened,(RtsChat.peer_client moved).1,?_⟩
    have conns := view_change s fd (some changed)
    simp only [Option.map_some] at conns
    rw [← conns]
    rfl

theorem service_lawful (listenfd : Nat) : Lawful (service listenfd) Kept where
  begins := ⟨initial_kept,rfl⟩
  relay := by
    rw [published_service]
    exact roomy_relay listenfd
  connects s next ran := by
    have moved : roomy listenfd s .connect = some next := ran
    exact ⟨rfl,connect_view (roomy_parts moved).2⟩
  pends s k event next ran := by
    have moved : roomy listenfd s (.pendingPeer k event) = some next := ran
    exact ⟨rfl,pending_view (roomy_parts moved).2⟩
  peers s fd event next ran := by
    have moved : roomy listenfd s (.peer fd event) = some next := ran
    exact ⟨rfl,peer_view (roomy_parts moved).2⟩
  turns _ _ _ _ main ran := change_stepped (roomy_parts ran).2 main
  printed _ _ _ _ _ _ ran read live := by
    rw [service,Option.isSome_map]
    exact printed_stepped (roomy_parts ran).2 read live
  shaped _ _ _ printed := chatText_shaped printed
  inside _ _ _ listed := by
    simp only [service,member,Bool.and_eq_true,decide_eq_true_eq] at listed
    exact listed.1
  between _ _ _ _ ran changed k := between_stepped (roomy_parts ran).2 changed k

def transcript (log : List (Publication ι (Said ι))) (i : ι) : Bytes :=
  (due log i).flatMap fun said => greeting said.fd (untilNul said.chunk)

theorem texts_transcript (listenfd : Nat) (log : List (Publication ι (Said ι))) (i : ι) :
    (texts (service listenfd) log i).flatten = transcript log i := List.flatMap_def.symm

-- chat_server_rts with any number of chat_linux_cli, over the network between
-- them. A client writes to descriptor 1 a front of one common log, whatever it
-- reads from its user is in that log in order, and nothing else is; and when main
-- waits and nothing of a client's is under way, nothing of either is missing.
theorem rts_terminals [DecidableEq ι] {r : Room ι RtsChat.State}
    (ran : run (step (service listenfd)) (opening (service listenfd)) actions = some r) :
    (∀ i, screen r i <+: transcript r.log i) ∧
    (∀ i j, (∀ entry ∈ r.log, entry.audience i = entry.audience j) → screen r i <+: screen r j ∨ screen r j <+: screen r i) ∧
    (∀ i, saidBy r.log i <+: (r.users i).typed) ∧
    ∀ i, Rested (service listenfd) r i → screen r i = transcript r.log i ∧ saidBy r.log i = (r.users i).typed := by
  have valid := run_valid (service_lawful listenfd) ran
  refine ⟨?_,fun i j same => screens_agree valid same,typed_front valid,?_⟩
  · intro i
    rw [← texts_transcript listenfd]
    exact screen_front valid i
  · intro i rested
    rw [← texts_transcript listenfd]
    exact rested_whole valid rested

def greeted : List (Action Nat RtsChat.Action) :=
  [.main (.setupListener RtsChat.answered),.dial 0,.main (.take (some 4)),.main (.setupClient RtsChat.answered),
    .dial 1,.main (.take (some 5)),.main (.setupClient RtsChat.answered),
    .user 1 (.select false true),.user 1 (.read (some ⟨ascii "ho",by decide⟩) []),.user 1 (.write (some 2)),
    .peer 5 (.data (ascii "ho")),.main (.take none)] ++ List.replicate 6 (.main (.write (.took 16))) ++
  [.user 0 (.select true false),.user 0 (.read (some ⟨ascii "user name",by decide⟩) []),.user 0 (.write (some 9))]

theorem rts_terminals_greeted : ∃ r, run (step (service 3)) (opening (service 3)) greeted = some r ∧
    screen r 0 = ascii "user name" ∧ screen r 0 <+: transcript r.log 0 ∧ saidBy r.log 1 = ascii "ho" ∧ saidBy r.log 1 <+: (r.users 1).typed ∧
    (screen r 0 <+: screen r 1 ∨ screen r 1 <+: screen r 0) := by
  have ends : (run (step (service 3)) (opening (service 3)) greeted).map (fun r => (screen r 0,saidBy r.log 1,
      r.log.all fun entry => entry.audience 0 == entry.audience 1)) = some (ascii "user name",ascii "ho",true) := by decide +kernel
  obtain ⟨r,ran,seen⟩ := Option.map_eq_some_iff.mp ends
  obtain ⟨shown,rest⟩ := Prod.mk.inj seen
  obtain ⟨said,same⟩ := Prod.mk.inj rest
  obtain ⟨front,agree,typed,_⟩ := rts_terminals ran
  have meant : ∀ entry ∈ r.log, entry.audience 0 = entry.audience 1 := by simpa using same
  exact ⟨r,ran,shown,front 0,said,typed 1,agree 0 1 meant⟩

end NetworkEx.RtsRoom
