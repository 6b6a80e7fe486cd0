import NetworkEx.ChatRoom
import NetworkEx.EpollOrder

namespace NetworkEx.EpollRoom
open ByteStreams CText ChatSockets TransitionRuns GroupBroadcast ChatRoom EpollOrder
open ChatLines (readOf readOf_reads readOf_removes readOf_some member_inside)
open EpollChat (Stepped step_sound lineText userName)
open EpollFidelity (lineText_parts)
open EpollRepresentation (Owned initial_owned)

def view (s : EpollChat.State) : View := ⟨s.backlog,s.conns,s.writes⟩

def mains : EpollChat.Action → Bool
  | .connect | .pendingPeer .. | .peer .. => false
  | _ => true

def service (listenfd : Nat) : Service EpollChat.State EpollChat.Action where
  step := EpollChat.step listenfd
  start := EpollChat.initial
  view := view
  live s := s.pc.live
  mains := mains
  connect := .connect
  pendingPeer := .pendingPeer
  peer := .peer
  reads := readOf
  text fd chunk := lineText (userName fd) chunk
  shape fd chunk := padded fd (untilNul chunk)
  member := member
  owed := owed

theorem change_stepped (stepped : Stepped listenfd s action next) (main : mains action = true) :
    Change (view s) (readOf s action) (view next) := by
  cases stepped with
  | connect | pendingPeer | peer => cases main
  | epollWait | skips | breaks | finishes => exact .quiet
  | acceptFails here | overindexes here large =>
    simp only [readOf,here]
    exact .quiet
  | usesFreed here freed =>
    simp only [readOf,here,freed,Option.bind_none]
    exact .quiet
  | accepts here first other free unused small =>
    simp only [readOf,here]
    exact .accepts first free
  | overreads here block opened data unprinted | reads here block opened data printed =>
    rw [readOf_reads here block opened data]
    exact .reads opened data
  | removes here block ended =>
    rw [readOf_removes here block ended]
    exact .closes _
  | writes looping inside listed opened whole =>
    rename_i k c addr text rest
    exact .writes k text

-- Main opens and closes descriptors between two events of a batch only.
theorem between_stepped (stepped : Stepped listenfd s action next)
    (changed : ((view s).conns fd).isSome ≠ ((view next).conns fd).isSome) (k : Nat) : owed next k = [] := by
  cases stepped with
  | accepts | removes => rfl
  | connect | pendingPeer | epollWait | acceptFails | overindexes | usesFreed | skips | breaks | writes | finishes =>
    exact absurd rfl changed
  | peer live opened moved | overreads here block opened data unprinted | reads here block opened data printed =>
    exact absurd (isSome_change opened _ fd).symm changed

theorem printed_stepped (owned : Owned s) (stepped : Stepped listenfd s action next) (read : readOf s action = some (fd,chunk))
    (live : next.pc.live = true) : (lineText (userName fd) chunk).isSome := by
  cases stepped with
  | connect | pendingPeer | peer | epollWait | skips | breaks | writes | finishes => cases read
  | acceptFails | overindexes | usesFreed | overreads => cases live
  | accepts here first other free unused small =>
    simp only [readOf,here] at read
    cases read
  | reads here block opened data printed =>
    rw [readOf_reads here block opened data] at read
    cases read
    rw [(owned.named _ _ block).1] at printed
    rw [printed]
    rfl
  | removes here block ended =>
    rw [readOf_removes here block ended] at read
    cases read

theorem lineText_shaped (printed : lineText (userName fd) chunk = some text) : text = padded fd (untilNul chunk) := by
  obtain ⟨msg,isString,shown,_⟩ := lineText_parts printed
  rwa [received_untilNul isString] at shown

theorem connect_view (ran : EpollChat.step listenfd s .connect = some next) :
    view next = {view s with backlog := (view s).backlog ++ [Conn.fresh]} := by
  cases step_sound ran with
  | connect live => rfl

theorem pending_view (ran : EpollChat.step listenfd s (.pendingPeer k event) = some next) : ∃ c d,
    (view s).backlog[k]? = some c ∧ Conn.peer c event = some d ∧ view next = {view s with backlog := (view s).backlog.set k d} := by
  cases step_sound ran with
  | pendingPeer live pending moved => exact ⟨_,_,pending,moved,rfl⟩

theorem peer_view (ran : EpollChat.step listenfd s (.peer fd event) = some next) : ∃ c d,
    (view s).conns fd = some c ∧ Conn.peer c event = some d ∧
      view next = {view s with conns := Function.update (view s).conns fd (some d)} := by
  cases step_sound ran with
  | peer live opened moved => exact ⟨_,_,opened,moved,rfl⟩

theorem service_lawful (listenfd : Nat) : Lawful (service listenfd) Owned where
  begins := ⟨initial_owned,rfl⟩
  relay := chat_relay listenfd
  connects s next ran := by
    have moved : EpollChat.step listenfd s .connect = some next := ran
    exact ⟨rfl,connect_view moved⟩
  pends s k event next ran := by
    have moved : EpollChat.step listenfd s (.pendingPeer k event) = some next := ran
    exact ⟨rfl,pending_view moved⟩
  peers s fd event next ran := by
    have moved : EpollChat.step listenfd s (.peer fd event) = some next := ran
    exact ⟨rfl,peer_view moved⟩
  turns _ _ _ _ main ran := change_stepped (step_sound ran) main
  printed _ _ _ _ _ owned ran read live := printed_stepped owned (step_sound ran) read live
  shaped _ _ _ printed := lineText_shaped printed
  inside _ _ owned listed := member_inside owned (of_decide_eq_true listed)
  between _ _ _ _ ran changed k := between_stepped (step_sound ran) changed k

-- What the messages in a log look like to a client they are all meant for; the
-- whole buffer of send_msg comes through, its zeros too.
def transcript (log : List (Publication ι (Said ι))) (i : ι) : Bytes :=
  (due log i).flatMap fun said => padded said.fd (untilNul said.chunk)

theorem texts_transcript (listenfd : Nat) (log : List (Publication ι (Said ι))) (i : ι) :
    (texts (service listenfd) log i).flatten = transcript log i := List.flatMap_def.symm

theorem sender_meant [DecidableEq ι] {r : Room ι EpollChat.State} (valid : Valid (service listenfd) Owned r)
    (out : spoken (service listenfd) r action = some entry) : entry.audience entry.message.sender = true := by
  obtain ⟨⟨fd,chunk⟩,read,rest⟩ := Option.bind_eq_some_iff.mp out
  obtain ⟨i,who,rest⟩ := Option.bind_eq_some_iff.mp rest
  obtain ⟨_,_,rfl⟩ := Option.map_eq_some_iff.mp rest
  obtain ⟨c,opened,_⟩ := readOf_some read
  have listed := (valid.inv.listed fd).mpr (by simp [opened])
  have meant : EpollOrder.member r.server fd = true := decide_eq_true listed
  dsimp only
  rw [audience_seat (service_lawful listenfd) valid who]
  exact meant

-- The chat server of chat_cil with any number of chat_linux_cli, over the network
-- between them. Each message is meant for its sender too, so that a client whose
-- bytes have all gone through has what it typed in its output.
theorem epoll_terminals [DecidableEq ι] {r : Room ι EpollChat.State}
    (ran : run (step (service listenfd)) (opening (service listenfd)) actions = some r) :
    (∀ i, screen r i <+: transcript r.log i) ∧
    (∀ i j, (∀ entry ∈ r.log, entry.audience i = entry.audience j) → screen r i <+: screen r j ∨ screen r j <+: screen r i) ∧
    (∀ i, saidBy r.log i <+: (r.users i).typed) ∧
    (∀ entry ∈ r.log, entry.audience entry.message.sender = true) ∧
    ∀ i, Rested (service listenfd) r i → screen r i = transcript r.log i ∧ saidBy r.log i = (r.users i).typed := by
  have valid := run_valid (service_lawful listenfd) ran
  refine ⟨?_,fun i j same => screens_agree valid same,typed_front valid,?_,?_⟩
  · intro i
    rw [← texts_transcript listenfd]
    exact screen_front valid i
  · exact run_log (service_lawful listenfd) (fun _ _ _ valid out => sender_meant valid out) ran
  · intro i rested
    rw [← texts_transcript listenfd]
    exact rested_whole valid rested

def greeted : List (Action Nat EpollChat.Action) :=
  [.dial 0,.dial 1,.main (.epollWait [none]),.main (.handle (some (4,100))),.main (.epollWait [none]),.main (.handle (some (5,101))),
    .user 1 (.select false true),.user 1 (.read (some ⟨[104],by decide⟩) []),.user 1 (.write (some 1)),
    .peer 5 (.data [104]),.main (.epollWait [some 5]),.main (.handle none)] ++ List.replicate 6 (.main .write) ++
  [.user 0 (.select true false),.user 0 (.read (some ⟨ascii "user",by decide⟩) []),.user 0 (.write (some 4)),
    .user 1 (.select true false),.user 1 (.read (some ⟨ascii "us",by decide⟩) []),.user 1 (.write (some 2))]

theorem epoll_terminals_greeted : ∃ r, run (step (service 3)) (opening (service 3)) greeted = some r ∧
    screen r 0 = ascii "user" ∧ screen r 0 <+: transcript r.log 0 ∧ saidBy r.log 1 = [104] ∧ saidBy r.log 1 <+: (r.users 1).typed ∧
    (screen r 0 <+: screen r 1 ∨ screen r 1 <+: screen r 0) := by
  have ends : (run (step (service 3)) (opening (service 3)) greeted).map (fun r => (screen r 0,saidBy r.log 1,
      r.log.all fun entry => entry.audience 0 == entry.audience 1)) = some (ascii "user",[104],true) := by decide +kernel
  obtain ⟨r,ran,seen⟩ := Option.map_eq_some_iff.mp ends
  obtain ⟨shown,rest⟩ := Prod.mk.inj seen
  obtain ⟨said,same⟩ := Prod.mk.inj rest
  obtain ⟨front,agree,typed,_⟩ := epoll_terminals ran
  have meant : ∀ entry ∈ r.log, entry.audience 0 = entry.audience 1 := by simpa using same
  exact ⟨r,ran,shown,front 0,said,typed 1,agree 0 1 meant⟩

end NetworkEx.EpollRoom
