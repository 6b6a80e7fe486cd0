import Mathlib.Algebra.Order.BigOperators.Group.Finset
import NetworkEx.EpollOrder
import NetworkEx.ProcessTable

namespace NetworkEx.EpollDrain
open ByteStreams CText ChatSockets ProcessTable TransitionRuns GroupBroadcast EpollChat EpollRepresentation EpollOrder
open ChatLines (member_inside)
open EpollFidelity (lineText_parts)

def Own : Action → Prop
  | .epollWait _ | .handle _ | .write => True
  | _ => False

-- The sockets block: main stands in a write to a client for as long as the kernel
-- has no room for it. When it has none is left open.
def Waits (full : State → Nat → Prop) (s : State) : Prop := ∃ addr text i rest c, s.pc = .broadcast addr text i rest ∧
  i < maxClients ∧ s.userFds i = 1 ∧ s.conns i = some c ∧ c.failed = false ∧ full s i

def Goes (full : State → Nat → Prop) (s : State) (action : Action) : Prop := Own action ∧ (action = .write → ¬ Waits full s)

def Stuck (full : State → Nat → Prop) (listenfd : Nat) (s : State) : Prop :=
  ∀ action, Goes full s action → step listenfd s action = none

-- Nothing waits for main: no connection to accept, no byte to read, no end and no
-- reset that it has not seen.
structure Drained (s : State) : Prop where
  waiting : s.pc = .batch []
  backlog : s.backlog = []
  idle : ∀ fd c, s.conns fd = some c → c = ⟨[],false,false⟩

def ahead : Pc → List Data
  | .batch events => events
  | .broadcast _ _ _ rest => rest
  | _ => []

def Ready (s : State) : Prop :=
  ∀ addr ∈ pointers (ahead s.pc), ∀ user c, s.heap addr = some user → s.conns user.fd = some c → c.idle = false

-- The turns that main has before it; each turn of a broadcast counts with what it
-- puts on the network.
def turns : Pc → Nat
  | .batch [] => EPOLL_SIZE + 1
  | .batch (_ :: rest) => rest.length + 1
  | .broadcast _ text i rest => (maxClients + 1 - i) * (4 * text.length + 1) + (EPOLL_SIZE + 2 + rest.length)
  | .killed | .wild => 0

-- What one event may lead to at most.
@[irreducible] def share : Nat := (maxClients + 1) * (4 * (MAXLINE + 24) + 1) + (EPOLL_SIZE + 2)

def connLeft : Option Conn → Nat
  | none => 0
  | some c => c.unread.length + 1

def arrived (s : State) : Nat :=
  ∑ fd ∈ Finset.range maxClients, connLeft (s.conns fd) + (s.backlog.map fun c => c.unread.length + 2).sum

def left (s : State) : Nat := share * arrived s + turns s.pc

def sent (s : State) : Nat := (s.writes.map fun write => write.2.length).sum

theorem idle_eq (c : Conn) : c.idle = true ↔ c = ⟨[],false,false⟩ := by
  obtain ⟨unread,closed,failed⟩ := c
  simp [Conn.idle,and_assoc]

theorem pointers_next {events : List Data} {event : Data} (member : addr ∈ pointers events) : addr ∈ pointers (event :: events) := by
  cases event with
  | listen => exact member
  | ptr other => exact List.mem_cons_of_mem _ member

theorem ahead_blocks (pc : Pc) (member : addr ∈ pointers (ahead pc)) : addr ∈ pc.blocks := by
  cases pc with
  | batch events => exact member
  | broadcast other text i rest => exact List.mem_cons_of_mem _ member
  | killed | wild => cases member

theorem eventOf_ready (event : eventOf s (some fd) = some (.ptr addr)) :
    s.interest fd = some addr ∧ ∃ c, s.conns fd = some c ∧ c.idle = false := by
  unfold eventOf at event
  dsimp only at event
  split at event
  · rename_i addr' c registered opened
    split at event
    · cases event
    · rename_i busy
      cases event
      exact ⟨registered,c,opened,by simpa using busy⟩
  · cases event

theorem reported_ready {reported : List (Option Nat)} (events : reported.mapM (eventOf s) = some batch)
    (member : addr ∈ pointers batch) : ∃ fd c, s.interest fd = some addr ∧ s.conns fd = some c ∧ c.idle = false := by
  induction reported generalizing batch with
  | nil => cases events; cases member
  | cons first rest ih =>
    simp only [List.mapM_cons,Option.bind_eq_bind,Option.bind_eq_some_iff] at events
    obtain ⟨event,here,later,tail,result⟩ := events
    cases result
    cases event with
    | listen => exact ih tail member
    | ptr other =>
      rcases List.mem_cons.mp member with rfl | old
      · obtain ⟨fd,rfl,_⟩ := eventOf_ptr here
        obtain ⟨registered,c,opened,busy⟩ := eventOf_ready here
        exact ⟨fd,c,registered,opened,busy⟩
      · exact ih tail old

theorem ahead_other (owned : Owned s) (here : s.pc = .batch (.ptr addr :: rest)) (block : s.heap addr = some user)
    (member : other ∈ pointers rest) (theirs : s.heap other = some another) : other ≠ addr ∧ another.fd ≠ user.fd := by
  have once := owned.once
  rw [here] at once
  have different : other ≠ addr := by
    rintro rfl
    exact (List.nodup_cons.mp once).1 member
  refine ⟨different,?_⟩
  intro same
  have mine := (owned.mine addr user block).1
  have others := (owned.mine other another theirs).1
  rw [same] at others
  exact different (Option.some.inj (others.symm.trans mine))

theorem ready_preserved (owned : Owned s) (ready : Ready s) (stepped : Stepped listenfd s action next) : Ready next := by
  cases stepped with
  | connect | pendingPeer => exact ready
  | peer live opened moved =>
    intro addr member user c block found
    rcases update_found found with ⟨_,rfl⟩ | ⟨_,found⟩
    · exact peer_busy moved
    · exact ready addr member user c block found
  | epollWait waiting single events =>
    intro addr member user c block found
    obtain ⟨fd,d,registered,opened,busy⟩ := reported_ready events member
    obtain ⟨other,theirs,same⟩ := owned.owned fd addr registered
    cases block.symm.trans theirs
    rw [same] at found
    cases opened.symm.trans found
    exact busy
  | acceptFails | overindexes | usesFreed | overreads | breaks => intro addr member; cases member
  | accepts here first other free unused small =>
    intro addr member user c block found
    have earlier : addr ∈ pointers (ahead s.pc) := by rw [here]; exact member
    obtain ⟨owner,held⟩ := owned.held addr (ahead_blocks s.pc earlier)
    rcases update_found block with ⟨rfl,_⟩ | ⟨_,block⟩
    · cases unused.symm.trans held
    · rcases update_found found with ⟨same,_⟩ | ⟨_,found⟩
      · exact absurd (same ▸ free) (owned.mine addr user block).2
      · exact ready addr earlier user c block found
  | reads here block opened data printed =>
    intro other member another c theirs found
    obtain ⟨_,apart⟩ := ahead_other owned here block member theirs
    have earlier : other ∈ pointers (ahead s.pc) := by rw [here]; exact pointers_next member
    exact ready other earlier another c theirs ((update_found found).resolve_left fun same => apart same.1).2
  | removes here block ended =>
    intro other member another c theirs found
    have earlier : other ∈ pointers (ahead s.pc) := by rw [here]; exact pointers_next member
    exact ready other earlier another c (clear_found theirs).2 (clear_found found).2
  | skips looping | writes looping | finishes looping =>
    intro addr member
    have earlier : addr ∈ pointers (ahead s.pc) := by rw [looping]; exact member
    exact ready addr earlier

theorem opened_inside (owned : Owned s) (opened : s.conns fd = some c) : fd < maxClients :=
  member_inside owned ((owned.listed fd).mpr (by rw [opened]; nofun))

theorem arrived_change (inside : fd < maxClients) (conns : next.conns = Function.update s.conns fd after)
    (backlog : next.backlog = s.backlog) : arrived next + connLeft (s.conns fd) = arrived s + connLeft after := by
  have sums := sum_change (fun k => connLeft (s.conns k)) (fun k => connLeft (next.conns k))
    (Finset.mem_range.mpr inside) (fun other different => by rw [conns,Function.update_of_ne different])
  simp only [conns,Function.update_self] at sums
  unfold arrived
  rw [backlog,conns]
  omega

theorem afterRead_less (data : Conn.read c = .data chunk) : c.afterRead.unread.length < c.unread.length := by
  obtain ⟨some_,front,whole⟩ := read_data data
  have length := congrArg List.length whole
  rw [List.length_append] at length
  have brought : 0 < chunk.length := by
    rw [front,List.length_take]
    have unread := List.length_pos_iff.mpr some_
    have room : 0 < MAXLINE := by decide
    omega
  omega

theorem arrived_reads (owned : Owned s) (opened : s.conns fd = some c) (data : c.read = .data chunk)
    (conns : next.conns = Function.update s.conns fd (some c.afterRead)) (backlog : next.backlog = s.backlog) :
    arrived next < arrived s := by
  have change := arrived_change (opened_inside owned opened) conns backlog
  have less := afterRead_less data
  rw [opened] at change
  simp only [connLeft] at change
  omega

theorem arrived_accepts (first : s.backlog = c :: later) (free : s.conns fd = none) (small : fd < maxClients)
    (conns : next.conns = Function.update s.conns fd (some c)) (backlog : next.backlog = later) : arrived next < arrived s := by
  have sums := sum_change (fun k => connLeft (s.conns k)) (fun k => connLeft (next.conns k))
    (Finset.mem_range.mpr small) (fun other different => by rw [conns,Function.update_of_ne different])
  simp only [conns,Function.update_self,free,connLeft] at sums
  unfold arrived
  rw [first,backlog,conns]
  simp only [List.map_cons,List.sum_cons,connLeft]
  omega

theorem arrived_removes (owned : Owned s) (opened : s.conns fd = some c) (conns : next.conns = Function.update s.conns fd none)
    (backlog : next.backlog = s.backlog) : arrived next < arrived s := by
  have change := arrived_change (opened_inside owned opened) conns backlog
  rw [opened] at change
  simp only [connLeft] at change
  omega

theorem lineText_length (printed : lineText (userName fd) chunk = some text) : text.length = MAXLINE + 24 := by
  obtain ⟨msg,_,rfl,room⟩ := lineText_parts printed
  rw [overlay_length,List.length_replicate]
  omega

theorem turns_batch (rest : List Data) : turns (.batch rest) < EPOLL_SIZE + 2 + rest.length := by
  cases rest with
  | nil => exact Nat.lt_succ_self _
  | cons event rest =>
    simp only [turns,List.length_cons]
    omega

theorem left_turn (same : arrived next = arrived s) (less : turns next.pc + 4 * sent next < turns s.pc + 4 * sent s) :
    left next + 4 * sent next < left s + 4 * sent s := by
  unfold left
  rw [same]
  omega

-- An event that takes something in pays for all it leads to.
theorem left_event (here : s.pc = .batch (event :: rest)) (fewer : arrived next < arrived s)
    (most : turns next.pc ≤ share + rest.length) (same : sent next = sent s) :
    left next + 4 * sent next < left s + 4 * sent s := by
  have paid : share * (arrived next + 1) ≤ share * arrived s := Nat.mul_le_mul_left share fewer
  unfold left
  rw [same,here,turns]
  rw [Nat.mul_succ] at paid
  omega

theorem share_batch (rest : List Data) : turns (.batch rest) ≤ share + rest.length := by
  have most := turns_batch rest
  unfold share
  omega

theorem handled_drops (owned : Owned s) (stepped : Stepped listenfd s (.handle accepted) next) :
    left next + 4 * sent next < left s + 4 * sent s := by
  cases stepped with
  | acceptFails here | overindexes here | usesFreed here =>
    refine left_turn rfl ?_
    show 0 + 4 * sent s < turns s.pc + 4 * sent s
    rw [here]
    simp only [turns]
    omega
  | accepts here first other free unused small =>
    exact left_event here (arrived_accepts first free small rfl rfl) (share_batch _) rfl
  | overreads here block opened data unprinted =>
    exact left_event here (arrived_reads owned opened data rfl rfl) (Nat.zero_le _) rfl
  | reads here block opened data printed =>
    rw [(owned.named _ _ block).1] at printed
    refine left_event here (arrived_reads owned opened data rfl rfl) ?_ rfl
    simp only [turns,lineText_length printed,share,Nat.sub_zero]
    omega
  | removes here block ended =>
    obtain ⟨c,opened⟩ := Option.ne_none_iff_exists'.mp (owned.mine _ _ block).2
    exact left_event here (arrived_removes owned opened rfl rfl) (share_batch _) rfl

theorem written_drops (stepped : Stepped listenfd s .write next) : left next + 4 * sent next < left s + 4 * sent s := by
  cases stepped with
  | skips looping inside silent =>
    rename_i i addr text rest
    refine left_turn rfl (Nat.add_lt_add_right ?_ _)
    have fewer : maxClients + 1 - i = maxClients + 1 - (i + 1) + 1 := by omega
    rw [looping]
    simp only [turns]
    rw [fewer,Nat.succ_mul (maxClients + 1 - (i + 1))]
    omega
  | breaks looping inside member opened broken =>
    refine left_turn rfl (Nat.add_lt_add_right ?_ _)
    rw [looping]
    simp only [turns]
    omega
  | writes looping inside member opened whole =>
    rename_i i c addr text rest
    refine left_turn rfl ?_
    have fewer : maxClients + 1 - i = maxClients + 1 - (i + 1) + 1 := by omega
    have more : sent {s with pc := .broadcast addr text (i+1) rest,writes := s.writes ++ [(i,text)]} = sent s + text.length := by
      simp [sent]
    rw [more,looping]
    simp only [turns]
    rw [fewer,Nat.succ_mul (maxClients + 1 - (i + 1))]
    omega
  | finishes looping outside =>
    rename_i i rest addr text
    refine left_turn rfl (Nat.add_lt_add_right ?_ _)
    have most := turns_batch rest
    rw [looping]
    show turns (.batch rest) < _
    simp only [turns] at most ⊢
    omega

theorem reported_length {reported : List (Option Nat)} (events : reported.mapM (eventOf s) = some batch) :
    batch.length = reported.length := by
  induction reported generalizing batch with
  | nil => cases events; rfl
  | cons first rest ih =>
    simp only [List.mapM_cons,Option.bind_eq_bind,Option.bind_eq_some_iff] at events
    obtain ⟨event,_,later,tail,result⟩ := events
    cases result
    rw [List.length_cons,List.length_cons,ih tail]

theorem polled_drops (ran : step listenfd s (.epollWait reported) = some next) :
    left next + 4 * sent next < left s + 4 * sent s := by
  simp only [step,Option.ite_none_right_eq_some,Option.map_eq_some_iff] at ran
  obtain ⟨⟨waiting,some_,short,_⟩,batch,events,rfl⟩ := ran
  have length := reported_length events
  refine left_turn rfl (Nat.add_lt_add_right ?_ _)
  rw [waiting]
  cases batch with
  | nil => exact absurd (List.length_eq_zero_iff.mp length.symm) some_
  | cons event rest =>
    rw [← length,List.length_cons] at short
    simp only [turns]
    omega

theorem main_drops (owned : Owned s) (own : Own action) (ran : step listenfd s action = some next) :
    left next + 4 * sent next < left s + 4 * sent s := by
  cases action with
  | epollWait reported => exact polled_drops ran
  | handle accepted => exact handled_drops owned (step_sound ran)
  | write => exact written_drops (step_sound ran)
  | connect | pendingPeer | peer => exact own.elim

theorem sent_grows (stepped : Stepped listenfd s action next) : sent s ≤ sent next := by
  cases stepped with
  | writes looping inside member opened whole => simp [sent]
  | _ => exact Nat.le_refl _

theorem left_drops (owned : Owned s) (own : Own action) (ran : step listenfd s action = some next) : left next < left s := by
  have drops := main_drops owned own ran
  have grows := sent_grows (step_sound ran)
  omega

theorem left_arrives (more : arrived next = arrived s + n) (same : next.pc = s.pc) : left next = left s + share * n := by
  unfold left
  rw [more,same,Nat.mul_add]
  omega

theorem arrived_peer (owned : Owned s) (opened : s.conns fd = some c) (moved : Conn.peer c (.data bytes) = some d)
    (conns : next.conns = Function.update s.conns fd (some d)) (backlog : next.backlog = s.backlog) :
    arrived next = arrived s + bytes.length := by
  have change := arrived_change (opened_inside owned opened) conns backlog
  rw [opened,(peer_data moved).2.2.2] at change
  simp only [connLeft,List.length_append] at change
  omega

theorem left_peer (owned : Owned s) (ran : step listenfd s (.peer fd (.data bytes)) = some next) :
    left next = left s + share * bytes.length := by
  cases step_sound ran with
  | peer live opened moved => exact left_arrives (arrived_peer owned opened moved rfl rfl) rfl

theorem arrived_pending (pending : s.backlog[k]? = some c) (moved : Conn.peer c (.data bytes) = some d)
    (conns : next.conns = s.conns) (backlog : next.backlog = s.backlog.set k d) : arrived next = arrived s + bytes.length := by
  have change := weight_set (fun c => c.unread.length + 2) pending d
  rw [(peer_data moved).2.2.2] at backlog change
  simp only [List.length_append] at change
  unfold arrived
  rw [conns,backlog]
  omega

theorem left_pending (ran : step listenfd s (.pendingPeer k (.data bytes)) = some next) :
    left next = left s + share * bytes.length := by
  cases step_sound ran with
  | pendingPeer live pending moved => exact left_arrives (arrived_pending pending moved rfl rfl) rfl

theorem poll_goes (waiting : s.pc = .batch []) (event : eventOf s reported = some data) :
    step listenfd s (.epollWait [reported]) = some {s with pc := .batch [data]} := by
  have short : 1 ≤ EPOLL_SIZE := by decide
  simp [step,waiting,event,short]

theorem poll_stuck (drained : Drained s) (reported : Option Nat) : eventOf s reported = none := by
  cases reported with
  | none => simp [eventOf,drained.backlog]
  | some fd =>
    simp only [eventOf]
    split
    · rename_i addr c registered opened
      rw [if_pos ((idle_eq c).mpr (drained.idle fd c opened))]
    · rfl

theorem drained_stuck (drained : Drained s) : Stuck full listenfd s := by
  intro action ⟨own,_⟩
  cases action with
  | epollWait reported =>
    simp only [step]
    split
    · rename_i checked
      cases reported with
      | nil => exact absurd rfl checked.2.1
      | cons first rest => simp [poll_stuck drained]
    · rfl
  | handle | write => simp only [step,drained.waiting]
  | connect | pendingPeer | peer => exact own.elim

theorem dead_stuck (dead : s.pc.live = false) : Stuck full listenfd s := by
  intro action ⟨own,_⟩
  cases here : s.pc with
  | batch | broadcast => rw [here] at dead; cases dead
  | killed | wild =>
    cases action with
    | epollWait reported => simp [step,here]
    | handle | write => simp only [step,here]
    | connect | pendingPeer | peer => exact own.elim

theorem served_goes (owned : Owned s) (ready : Ready s) (here : s.pc = .batch (.ptr addr :: rest)) :
    serveClient s addr rest ≠ none := by
  have pending : addr ∈ pointers (ahead s.pc) := by rw [here]; exact List.mem_cons_self
  obtain ⟨user,block⟩ := owned.held addr (ahead_blocks s.pc pending)
  obtain ⟨c,opened⟩ := Option.ne_none_iff_exists'.mp (owned.mine addr user block).2
  have busy := ready addr pending user c block opened
  cases read : c.read with
  | again =>
    rw [read_again_iff,busy] at read
    cases read
  | data chunk => cases printed : lineText user.name chunk <;> simp [serveClient,block,opened,read,printed]
  | error | eof => simp [serveClient,block,opened,read]

theorem waits_stuck (waits : Waits full s) : Stuck full listenfd s := by
  intro action ⟨own,free⟩
  obtain ⟨addr,text,i,rest,c,looping,_⟩ := id waits
  cases action with
  | write => exact absurd waits (free rfl)
  | epollWait | handle => simp [step,looping]
  | connect | pendingPeer | peer => exact own.elim

theorem other_goes (own : Own action) (other : action ≠ .write) : Goes full s action :=
  ⟨own,fun same => absurd same other⟩

-- As long as the program is there, nothing else stops it than that nothing waits
-- for it or that it waits in a write.
theorem stuck_iff (full : State → Nat → Prop) (listenfd : Nat) (owned : Owned s) (ready : Ready s) :
    Stuck full listenfd s ↔ (s.pc.live = true → Drained s ∨ Waits full s) := by
  constructor
  · intro stuck live
    cases here : s.pc with
    | killed | wild => rw [here] at live; cases live
    | broadcast addr text i rest =>
      right
      by_contra free
      have halted := stuck .write ⟨trivial,fun _ => free⟩
      simp only [step,here] at halted
      cases halted
    | batch events =>
      cases events with
      | cons event rest =>
        have halted := stuck (.handle none) (other_goes trivial (by simp))
        simp only [step,here] at halted
        cases event with
        | listen => cases halted
        | ptr addr => exact absurd halted (served_goes owned ready here)
      | nil =>
        refine .inl ⟨here,?_,?_⟩
        · by_contra waits
          have event : eventOf s none = some .listen := by simp [eventOf,waits]
          cases (stuck (.epollWait [none]) (other_goes trivial (by simp))).symm.trans (poll_goes here event)
        · intro fd c opened
          rw [← idle_eq]
          by_contra busy
          obtain ⟨addr,registered⟩ := owned.registered fd (by simp [opened])
          have event : eventOf s (some fd) = some (.ptr addr) := by simp [eventOf,registered,opened,busy]
          cases (stuck (.epollWait [some fd]) (other_goes trivial (by simp))).symm.trans (poll_goes here event)
  · intro rests
    cases live : s.pc.live with
    | true =>
      rcases rests live with drained | waits
      · exact drained_stuck drained
      · exact waits_stuck waits
    | false => exact dead_stuck live

end NetworkEx.EpollDrain
