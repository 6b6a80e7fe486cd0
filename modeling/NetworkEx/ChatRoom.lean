import NetworkEx.ChatRelay
import NetworkEx.ChatSockets
import NetworkEx.GroupBroadcast

namespace NetworkEx.ChatRoom
open ByteStreams ChatSockets TransitionRuns GroupBroadcast
open ChatRelay (Fd Relayed taken passed Quiet)

-- What the network and the clients have of a server.
structure View where
  backlog : List Conn
  conns : Nat → Option Conn
  writes : List (Nat × Bytes)

-- What one step of a server's main may do to that, with what it reads.
inductive Change (v : View) : Option (Nat × Bytes) → View → Prop where
  | quiet : Change v none v
  | accepts (first : v.backlog = c :: later) (free : v.conns fd = none) :
      Change v none {v with backlog := later,conns := Function.update v.conns fd (some c)}
  | closes (fd : Nat) : Change v none {v with conns := Function.update v.conns fd none}
  | reads (opened : v.conns fd = some c) (data : c.read = .data chunk) :
      Change v (some (fd,chunk)) {v with conns := Function.update v.conns fd (some c.afterRead)}
  | writes (fd : Nat) (text : Bytes) : Change v none {v with writes := v.writes ++ [(fd,text)]}

-- A chat server. `text` is what main makes of a read before it sends it to its
-- members, none where that goes wrong, and `shape` what it looks like.
structure Service (σ : Type u) (α : Type v) where
  step : σ → α → Option σ
  start : σ
  view : σ → View
  live : σ → Bool
  mains : α → Bool
  connect : α
  pendingPeer : Nat → PeerEvent → α
  peer : Nat → PeerEvent → α
  reads : σ → α → Option (Nat × Bytes)
  text : Nat → Bytes → Option Bytes
  shape : Nat → Bytes → Bytes
  member : σ → Nat → Bool
  owed : σ → Nat → List Bytes

variable {σ : Type u} {α : Type v} {ι : Type w}

def Service.published (service : Service σ α) (s : σ) (action : α) : List (Publication Nat Bytes) :=
  match service.reads s action with
  | none => []
  | some (fd,chunk) => ((service.text fd chunk).map fun text => ⟨text,service.member s⟩).toList

def Service.got (service : Service σ α) (s : σ) (fd : Nat) : List Bytes := sentTo (service.view s).writes fd

-- Descriptors are opened and closed only between two messages.
structure Lawful (service : Service σ α) (inv : σ → Prop) : Prop where
  begins : inv service.start ∧ service.view service.start = ⟨[],fun _ => none,[]⟩
  relay : Relay service.step inv (fun s => service.live s = true) service.published service.got service.owed
  connects : ∀ s next, service.step s service.connect = some next → service.reads s service.connect = none ∧
    service.view next = {service.view s with backlog := (service.view s).backlog ++ [Conn.fresh]}
  pends : ∀ s k event next, service.step s (service.pendingPeer k event) = some next →
    service.reads s (service.pendingPeer k event) = none ∧ ∃ c d,
      (service.view s).backlog[k]? = some c ∧ c.peer event = some d ∧
        service.view next = {service.view s with backlog := (service.view s).backlog.set k d}
  peers : ∀ s fd event next, service.step s (service.peer fd event) = some next →
    service.reads s (service.peer fd event) = none ∧ ∃ c d,
      (service.view s).conns fd = some c ∧ c.peer event = some d ∧
        service.view next = {service.view s with conns := Function.update (service.view s).conns fd (some d)}
  turns : ∀ s action next, inv s → service.mains action = true → service.step s action = some next →
    Change (service.view s) (service.reads s action) (service.view next)
  printed : ∀ s action next fd chunk, inv s → service.step s action = some next → service.reads s action = some (fd,chunk) →
    service.live next = true → (service.text fd chunk).isSome
  shaped : ∀ fd chunk text, service.text fd chunk = some text → text = service.shape fd chunk
  inside : ∀ s fd, inv s → service.member s fd = true → fd < maxClients
  between : ∀ s action next fd, service.step s action = some next →
    ((service.view s).conns fd).isSome ≠ ((service.view next).conns fd).isSome →
      ∀ k, service.owed next k = []

-- Whose bytes a server has read, and under which descriptor.
structure Said (ι : Type w) where
  sender : ι
  fd : Nat
  chunk : Bytes

-- A server and its clients, each running chat_linux_cli. `up` and `down` are the
-- bytes on their way, `queue` whose connections the backlog holds and `owner`
-- whose an open descriptor is. `told` and `log` are history: the texts written to
-- a client, and the reads that were sent round with those they were for.
structure Room (ι : Type w) (σ : Type u) where
  server : σ
  users : ι → ChatRelay.State
  up : ι → Bytes
  down : ι → Bytes
  dialled : ι → Bool
  queue : List ι
  owner : Nat → Option ι
  told : ι → List Bytes
  log : List (Publication ι (Said ι))

inductive Action (ι : Type w) (α : Type v) where
  | dial (i : ι)
  | user (i : ι) (action : ChatRelay.Action)
  | pending (k : Nat) (event : PeerEvent)
  | peer (fd : Nat) (event : PeerEvent)
  | main (action : α)

def opening (service : Service σ α) : Room ι σ :=
  ⟨service.start,fun _ => ChatRelay.initial,fun _ => [],fun _ => [],fun _ => false,[],fun _ => none,fun _ => [],[]⟩

-- What a client's step takes from its socket, and what it puts there.
def heard (u : ChatRelay.State) : ChatRelay.Action → Bytes
  | .read (some piece) _ =>
    match u.pc with
    | .readSocket _ => piece.val
    | _ => []
  | _ => []

def put (u : ChatRelay.State) : ChatRelay.Action → Bytes
  | .write answer =>
    match u.pc with
    | .writeSocket => (u.buf.take u.readn).take (answer.getD 0)
    | _ => []
  | _ => []

section Steps

variable [DecidableEq ι]

-- The network brings the server what a client has put on its socket, in order.
def carry (service : Service σ α) (r : Room ι σ) (i : ι) (event : PeerEvent) (action : α) : Option (Room ι σ) :=
  if event.bytes <+: r.up i then
    (service.step r.server action).map fun server =>
      {r with server,up := Function.update r.up i ((r.up i).drop event.bytes.length)}
  else none

-- A descriptor that has come open is of the client who was first in the backlog.
def owners (before after : View) (queue : List ι) (owner : Nat → Option ι) (fd : Nat) : Option ι :=
  match before.conns fd,after.conns fd with
  | _,none => none
  | none,some _ => queue.head?
  | some _,some _ => owner fd

def routed (owner : Nat → Option ι) (sent : List (Nat × Bytes)) (i : ι) : List Bytes :=
  (sent.filter fun entry => owner entry.1 = some i).map Prod.snd

def audience (service : Service σ α) (r : Room ι σ) (i : ι) : Bool :=
  (List.range maxClients).any fun fd => decide (r.owner fd = some i) && service.member r.server fd

def spoken (service : Service σ α) (r : Room ι σ) (action : α) : Option (Publication ι (Said ι)) :=
  (service.reads r.server action).bind fun read => (r.owner read.1).bind fun sender =>
    (service.text read.1 read.2).map fun _ => ⟨⟨sender,read.1,read.2⟩,audience service r⟩

def moved (service : Service σ α) (r : Room ι σ) (action : α) (server : σ) : Room ι σ :=
  let before := service.view r.server
  let after := service.view server
  let texts := routed r.owner (after.writes.drop before.writes.length)
  {r with
    server
    down := fun i => r.down i ++ (texts i).flatten
    queue := r.queue.drop (before.backlog.length - after.backlog.length)
    owner := owners before after r.queue r.owner
    told := fun i => r.told i ++ texts i
    log := r.log ++ (spoken service r action).toList}

def step (service : Service σ α) (r : Room ι σ) : Action ι α → Option (Room ι σ)
  | .dial i =>
    if r.dialled i then none
    else (service.step r.server service.connect).map fun server =>
      {r with server,dialled := Function.update r.dialled i true,queue := r.queue ++ [i]}
  | .user i action =>
    if r.dialled i ∧ heard (r.users i) action <+: r.down i then
      (ChatRelay.step (r.users i) action).map fun user =>
        {r with
          users := Function.update r.users i user
          up := Function.update r.up i (r.up i ++ put (r.users i) action)
          down := Function.update r.down i ((r.down i).drop (heard (r.users i) action).length)}
    else none
  | .pending k event => (r.queue[k]?).bind fun i => carry service r i event (service.pendingPeer k event)
  | .peer fd event => (r.owner fd).bind fun i => carry service r i event (service.peer fd event)
  | .main action => if service.mains action then (service.step r.server action).map (moved service r action) else none

def texts (service : Service σ α) (log : List (Publication ι (Said ι))) (i : ι) : List Bytes :=
  (due log i).map fun said => service.shape said.fd said.chunk

def saidBy (log : List (Publication ι (Said ι))) (i : ι) : Bytes :=
  (log.filter fun entry => entry.message.sender = i).flatMap fun entry => entry.message.chunk

-- What a client has put on descriptor 1 with write(). What printf puts there of
-- the client's own input is not in it.
def screen (r : Room ι σ) (i : ι) : Bytes := taken .out (r.users i).calls

-- Each connection is one client's, and each client has at most one.
structure Seated (v : View) (queue : List ι) (owner : Nat → Option ι) (dialled : ι → Bool) : Prop where
  aligned : queue.length = v.backlog.length
  opened : ∀ fd, (owner fd).isSome = (v.conns fd).isSome
  single : ∀ fd other i, owner fd = some i → owner other = some i → fd = other
  once : queue.Nodup
  apart : ∀ fd i, owner fd = some i → i ∉ queue
  queued : ∀ i ∈ queue, dialled i = true
  seated : ∀ fd i, owner fd = some i → dialled i = true

inductive Held (v : View) (queue : List ι) (owner : Nat → Option ι) (i : ι) (c : Conn) : Prop where
  | waits (k : Nat) (who : queue[k]? = some i) (what : v.backlog[k]? = some c)
  | serves (fd : Nat) (who : owner fd = some i) (what : v.conns fd = some c)

-- `front` and `said` hold whatever becomes of the server, the others as long as
-- it is there to go on.
structure Valid (service : Service σ α) (inv : σ → Prop) (r : Room ι σ) : Prop where
  inv : inv r.server
  seats : Seated (service.view r.server) r.queue r.owner r.dialled
  relayed : ∀ i, Relayed (r.users i)
  down : ∀ i, (r.users i).received ++ r.down i = (r.told i).flatten
  front : ∀ i, r.told i <+: texts service r.log i
  owed : service.live r.server = true → ∀ i fd, r.owner fd = some i → r.told i ++ service.owed r.server fd = texts service r.log i
  away : service.live r.server = true → ∀ i, (∀ fd, r.owner fd ≠ some i) → r.told i = texts service r.log i
  said : ∀ i, saidBy r.log i <+: taken .socket (r.users i).calls
  carried : service.live r.server = true → ∀ i c, Held (service.view r.server) r.queue r.owner i c →
    taken .socket (r.users i).calls = saidBy r.log i ++ (c.unread ++ r.up i)
  fresh : ∀ i, r.dialled i = false → taken .socket (r.users i).calls = [] ∧ saidBy r.log i = [] ∧ r.up i = []

theorem opening_valid (lawful : Lawful service inv) : Valid service inv (opening service : Room ι σ) := by
  obtain ⟨start,view⟩ := lawful.begins
  refine ⟨start,⟨?_,?_,nofun,List.nodup_nil,nofun,nofun,nofun⟩,fun _ => ChatRelay.initial_relayed,fun _ => rfl,
    fun _ => List.prefix_rfl,nofun,fun _ _ _ => rfl,fun _ => List.prefix_rfl,?_,fun _ _ => ⟨rfl,rfl,rfl⟩⟩
  · simp [opening,view]
  · simp [opening,view]
  · rintro _ i c (⟨k,who,_⟩ | ⟨fd,who,_⟩)
    · simp [opening] at who
    · cases who

end Steps

-- A client's own step.

theorem user_streams (moved : ChatRelay.step u action = some next) :
    next.received = u.received ++ heard u action ∧ taken .socket next.calls = taken .socket u.calls ++ put u action := by
  cases action with
  | select socket stdin =>
    simp only [ChatRelay.step] at moved
    split at moved
    · cases moved
      simp [heard,put]
    · cases moved
  | read result beyond =>
    simp only [ChatRelay.step] at moved
    cases result with
    | none => split at moved <;> cases moved <;> simp [heard,put]
    | some piece => split at moved <;> cases moved <;> simp_all [heard,put]
  | write answer =>
    simp only [ChatRelay.step] at moved
    split at moved
    · rename_i stdin here
      unfold ChatRelay.write at moved
      split at moved
      · cases moved
        simp [heard,put,here,ChatRelay.taken_last]
      · cases moved
    · rename_i here
      unfold ChatRelay.write at moved
      split at moved
      · cases moved
        simp [heard,put,here,ChatRelay.taken_last,ChatRelay.Call.taken]
      · cases moved
    · cases moved

theorem isSome_change {β : Type x} {table : Nat → Option β} {b : β} (opened : table fd = some b) (next : β) (other : Nat) :
    (Function.update table fd (some next) other).isSome = (table other).isSome := by
  by_cases equal : other = fd
  · rw [equal,Function.update_self,opened]
    rfl
  · rw [Function.update_of_ne equal]

section Seats

variable {v after : View} {queue : List ι} {owner : Nat → Option ι} {dialled : ι → Bool} {i j : ι} {c d : Conn} {k fd : Nat}

theorem owners_same (seats : Seated v queue owner dialled) (same : ∀ fd, (after.conns fd).isSome = (v.conns fd).isSome) :
    owners v after queue owner = owner := by
  funext fd
  have opened := seats.opened fd
  have still := same fd
  cases before : v.conns fd <;> cases now : after.conns fd <;> simp_all [owners]

theorem owners_opens (seats : Seated v queue owner dialled) (conns : after.conns = Function.update v.conns fd (some c))
    (free : v.conns fd = none) : owners v after queue owner = Function.update owner fd queue.head? := by
  funext other
  by_cases equal : other = fd
  · rw [equal,Function.update_self,owners,conns,Function.update_self,free]
  · have opened := seats.opened other
    rw [Function.update_of_ne equal,owners,conns,Function.update_of_ne equal]
    cases here : v.conns other <;> simp_all

theorem owners_closes (seats : Seated v queue owner dialled) (conns : after.conns = Function.update v.conns fd none) :
    owners v after queue owner = Function.update owner fd none := by
  funext other
  by_cases equal : other = fd
  · rw [equal,Function.update_self,owners,conns,Function.update_self]
  · have opened := seats.opened other
    rw [Function.update_of_ne equal,owners,conns,Function.update_of_ne equal]
    cases here : v.conns other <;> simp_all

theorem owners_found (found : owners v after queue owner fd = some i) :
    owner fd = some i ∨ (queue.head? = some i ∧ (v.conns fd).isSome ≠ (after.conns fd).isSome) := by
  unfold owners at found
  split at found
  · cases found
  · rename_i was is
    exact .inr ⟨found,by simp [was,is]⟩
  · exact .inl found

theorem owners_lost (seats : Seated v queue owner dialled)
    (who : owner fd = some i) (lost : owners v after queue owner fd ≠ some i) :
    (v.conns fd).isSome ≠ (after.conns fd).isSome := by
  have opened := seats.opened fd
  rw [who,Option.isSome_some] at opened
  unfold owners at lost
  split at lost
  · rename_i closed
    rw [← opened,closed]
    nofun
  · rename_i was _
    rw [was] at opened
    cases opened
  · exact absurd who lost

theorem seated_same (seats : Seated v queue owner dialled) (length : after.backlog.length = v.backlog.length)
    (same : ∀ fd, (after.conns fd).isSome = (v.conns fd).isSome) : Seated after queue owner dialled :=
  {seats with aligned := seats.aligned.trans length.symm,opened := fun fd => (seats.opened fd).trans (same fd).symm}

theorem seated_dials [DecidableEq ι] (seats : Seated v queue owner dialled) (first : dialled i = false) (c : Conn) :
    Seated {v with backlog := v.backlog ++ [c]} (queue ++ [i]) owner (Function.update dialled i true) := by
  have unseen : ∀ j, dialled j = true → j ≠ i := by
    rintro j here rfl
    rw [first] at here
    cases here
  have still : ∀ j, dialled j = true → Function.update dialled i true j = true := by
    intro j here
    rw [Function.update_of_ne (unseen j here)]
    exact here
  refine ⟨?_,seats.opened,seats.single,?_,?_,?_,fun fd j who => still j (seats.seated fd j who)⟩
  · rw [List.length_append,List.length_append,seats.aligned]
    rfl
  · refine List.nodup_append.mpr ⟨seats.once,List.pairwise_singleton ..,?_⟩
    intro j member k last
    rw [List.mem_singleton.mp last]
    exact unseen j (seats.queued j member)
  · intro fd j who member
    rcases List.mem_append.mp member with old | new
    · exact seats.apart fd j who old
    · exact unseen j (seats.seated fd j who) (List.mem_singleton.mp new)
  · refine List.forall_mem_append.mpr ⟨fun j member => still j (seats.queued j member),?_⟩
    exact List.forall_mem_singleton.mpr (Function.update_self ..)

theorem seated_accepts (seats : Seated v queue owner dialled) (first : v.backlog = c :: later) (fd : Nat) :
    ∃ i rest, queue = i :: rest ∧ Seated {v with backlog := later,conns := Function.update v.conns fd (some c)} rest
      (Function.update owner fd (some i)) dialled := by
  have length := seats.aligned
  rw [first] at length
  obtain ⟨i,rest,whole⟩ := List.exists_cons_of_length_eq_add_one length
  refine ⟨i,rest,whole,?_⟩
  have once := seats.once
  rw [whole] at once length
  have queued : ∀ j ∈ i :: rest, dialled j = true := by
    rw [← whole]
    exact seats.queued
  have apart : ∀ other j, owner other = some j → j ≠ i ∧ j ∉ rest := by
    intro other j who
    have outside := seats.apart other j who
    rwa [whole,List.mem_cons,not_or] at outside
  refine ⟨Nat.succ.inj length,?_,?_,once.of_cons,?_,fun j member => queued j (List.mem_cons_of_mem _ member),?_⟩
  · intro other
    by_cases equal : other = fd
    · simp [equal]
    · simp only [Function.update_of_ne equal]
      exact seats.opened other
  · intro one other j here there
    by_cases same : one = fd <;> by_cases equal : other = fd
    · rw [same,equal]
    · rw [same,Function.update_self] at here
      rw [Function.update_of_ne equal] at there
      exact absurd (Option.some.inj here).symm (apart other j there).1
    · rw [Function.update_of_ne same] at here
      rw [equal,Function.update_self] at there
      exact absurd (Option.some.inj there).symm (apart one j here).1
    · rw [Function.update_of_ne same] at here
      rw [Function.update_of_ne equal] at there
      exact seats.single one other j here there
  · intro other j who
    rcases update_found who with ⟨_,rfl⟩ | ⟨_,who⟩
    · exact (List.nodup_cons.mp once).1
    · exact (apart other j who).2
  · intro other j who
    rcases update_found who with ⟨_,rfl⟩ | ⟨_,who⟩
    · exact queued j List.mem_cons_self
    · exact seats.seated other j who

theorem seated_closes (seats : Seated v queue owner dialled) (fd : Nat) :
    Seated {v with conns := Function.update v.conns fd none} queue (Function.update owner fd none) dialled := by
  refine ⟨seats.aligned,?_,?_,seats.once,?_,seats.queued,?_⟩
  · intro other
    by_cases equal : other = fd
    · simp [equal]
    · simp only [Function.update_of_ne equal]
      exact seats.opened other
  · intro one other j here there
    exact seats.single one other j (clear_found here).2 (clear_found there).2
  · intro other j who
    exact seats.apart other j (clear_found who).2
  · intro other j who
    exact seats.seated other j (clear_found who).2

theorem held_dialled (seats : Seated v queue owner dialled) (held : Held v queue owner i c) : dialled i = true := by
  cases held with
  | waits k who what => exact seats.queued i (List.mem_of_getElem? who)
  | serves fd who what => exact seats.seated fd i who

theorem held_dials (seats : Seated v queue owner dialled) (held : Held {v with backlog := v.backlog ++ [d]} (queue ++ [j]) owner i c) :
    (i = j ∧ c = d) ∨ Held v queue owner i c := by
  cases held with
  | serves fd who what => exact .inr (.serves fd who what)
  | waits k who what =>
    rw [List.getElem?_append] at who what
    rw [seats.aligned] at who
    split at who
    · rename_i inside
      rw [if_pos inside] at what
      exact .inr (.waits k who what)
    · rename_i outside
      rw [if_neg outside] at what
      exact .inl ⟨List.mem_singleton.mp (List.mem_of_getElem? who),List.mem_singleton.mp (List.mem_of_getElem? what)⟩

theorem held_pends (seats : Seated v queue owner dialled) (who : queue[k]? = some j)
    (held : Held {v with backlog := v.backlog.set k d} queue owner i c) : (i = j ∧ c = d) ∨ (i ≠ j ∧ Held v queue owner i c) := by
  cases held with
  | serves fd here what =>
    refine .inr ⟨?_,.serves fd here what⟩
    rintro rfl
    exact seats.apart fd i here (List.mem_of_getElem? who)
  | waits l here what =>
    rw [List.getElem?_set] at what
    by_cases equal : k = l
    · rw [if_pos equal] at what
      rw [← equal,who] at here
      have inside : k < v.backlog.length := by
        by_contra outside
        rw [if_neg outside] at what
        cases what
      rw [if_pos inside] at what
      exact .inl ⟨(Option.some.inj here).symm,(Option.some.inj what).symm⟩
    · rw [if_neg equal] at what
      refine .inr ⟨?_,.waits l here what⟩
      rintro rfl
      obtain ⟨inside,_⟩ := List.getElem?_eq_some_iff.mp who
      exact equal ((List.getElem?_inj inside seats.once).mp (who.trans here.symm))

theorem held_changes (seats : Seated v queue owner dialled) (who : owner fd = some j)
    (held : Held {v with conns := Function.update v.conns fd (some d)} queue owner i c) :
    (i = j ∧ c = d) ∨ (i ≠ j ∧ Held v queue owner i c) := by
  cases held with
  | waits k here what =>
    refine .inr ⟨?_,.waits k here what⟩
    rintro rfl
    exact seats.apart fd i who (List.mem_of_getElem? here)
  | serves other here what =>
    rcases update_found what with ⟨rfl,rfl⟩ | ⟨different,what⟩
    · exact .inl ⟨Option.some.inj (here.symm.trans who),rfl⟩
    · refine .inr ⟨?_,.serves other here what⟩
      rintro rfl
      exact different (seats.single other fd i here who)

theorem held_accepts (first : v.backlog = d :: later)
    (held : Held {v with backlog := later,conns := Function.update v.conns fd (some d)} queue (Function.update owner fd (some j)) i c) :
    Held v (j :: queue) owner i c := by
  cases held with
  | waits k here what => exact .waits (k+1) (by simpa using here) (by simpa [first] using what)
  | serves other here what =>
    rcases update_found what with ⟨rfl,rfl⟩ | ⟨different,what⟩
    · rw [Function.update_self] at here
      exact .waits 0 (by simpa using here) (by simp [first])
    · rw [Function.update_of_ne different] at here
      exact .serves other here what

theorem held_closes (held : Held {v with conns := Function.update v.conns fd none} queue (Function.update owner fd none) i c) :
    Held v queue owner i c := by
  cases held with
  | waits k here what => exact .waits k here what
  | serves other here what => exact .serves other (clear_found here).2 (clear_found what).2

-- After a step of main a client has what it had, except for the one whose bytes
-- were read.
theorem seats_change (seats : Seated v queue owner dialled) (change : Change v input after) :
    Seated after (queue.drop (v.backlog.length - after.backlog.length)) (owners v after queue owner) dialled ∧
    ∀ i c, Held after (queue.drop (v.backlog.length - after.backlog.length)) (owners v after queue owner) i c →
      (Held v queue owner i c ∧ ∀ fd chunk, input = some (fd,chunk) → owner fd ≠ some i) ∨
      ∃ fd chunk b, input = some (fd,chunk) ∧ owner fd = some i ∧ v.conns fd = some b ∧ b.read = .data chunk ∧ c = b.afterRead := by
  cases change with
  | quiet =>
    rw [Nat.sub_self,List.drop_zero,owners_same seats fun _ => rfl]
    exact ⟨seats,fun i c held => .inl ⟨held,nofun⟩⟩
  | writes fd text =>
    have same : owners v {v with writes := v.writes ++ [(fd,text)]} queue owner = owner := owners_same seats fun _ => rfl
    rw [Nat.sub_self,List.drop_zero,same]
    refine ⟨seated_same seats rfl fun _ => rfl,fun i c held => .inl ⟨?_,nofun⟩⟩
    cases held with
    | waits k who what => exact .waits k who what
    | serves fd who what => exact .serves fd who what
  | accepts first free =>
    rename_i c later fd
    obtain ⟨i,rest,whole,seated⟩ := seated_accepts seats first fd
    have length : v.backlog.length - later.length = 1 := by rw [first,List.length_cons]; omega
    rw [length,whole,owners_opens (whole ▸ seats) rfl free]
    exact ⟨seated,fun j d held => .inl ⟨held_accepts first held,nofun⟩⟩
  | closes fd =>
    rw [Nat.sub_self,List.drop_zero,owners_closes seats rfl]
    exact ⟨seated_closes seats fd,fun i c held => .inl ⟨held_closes held,nofun⟩⟩
  | reads opened data =>
    rename_i fd b chunk
    have same : ∀ k, (Function.update v.conns fd (some b.afterRead) k).isSome = (v.conns k).isSome := isSome_change opened b.afterRead
    rw [Nat.sub_self,List.drop_zero,owners_same seats same]
    refine ⟨seated_same seats rfl same,fun i c held => ?_⟩
    obtain ⟨j,who⟩ := Option.isSome_iff_exists.mp ((seats.opened fd).trans (by rw [opened]; rfl))
    rcases held_changes seats who held with ⟨rfl,rfl⟩ | ⟨different,held⟩
    · exact .inr ⟨fd,chunk,b,rfl,who,opened,data,rfl⟩
    · refine .inl ⟨held,?_⟩
      rintro _ _ ⟨⟩ mine
      exact different (Option.some.inj (mine.symm.trans who))

def Linked (v : View) (queue : List ι) (owner : Nat → Option ι) (i : ι) : Prop :=
  ∃ c, Held v queue owner i c ∧ c.closed = false ∧ c.failed = false

theorem linked_pends (pending : v.backlog[k]? = some c) (closed : d.closed = c.closed) (failed : d.failed = c.failed)
    (linked : Linked v queue owner i) : Linked {v with backlog := v.backlog.set k d} queue owner i := by
  obtain ⟨b,held,opened,whole⟩ := linked
  cases held with
  | serves fd who what => exact ⟨b,.serves fd who what,opened,whole⟩
  | waits place who what =>
    by_cases equal : place = k
    · subst equal
      cases pending.symm.trans what
      refine ⟨d,.waits place who ?_,closed.trans opened,failed.trans whole⟩
      rw [List.getElem?_set_self (List.getElem?_eq_some_iff.mp pending).1]
    · refine ⟨b,.waits place who ?_,opened,whole⟩
      rw [List.getElem?_set_ne (Ne.symm equal)]
      exact what

theorem linked_changes (found : v.conns fd = some c) (closed : d.closed = c.closed) (failed : d.failed = c.failed)
    (linked : Linked v queue owner i) : Linked {v with conns := Function.update v.conns fd (some d)} queue owner i := by
  obtain ⟨b,held,opened,whole⟩ := linked
  cases held with
  | waits k who what => exact ⟨b,.waits k who what,opened,whole⟩
  | serves other who what =>
    by_cases equal : other = fd
    · subst equal
      cases found.symm.trans what
      exact ⟨d,.serves other who (Function.update_self ..),closed.trans opened,failed.trans whole⟩
    · exact ⟨b,.serves other who ((Function.update_of_ne equal _ _).trans what),opened,whole⟩

theorem linked_accepts (first : v.backlog = d :: later) (free : v.conns fd = none) (linked : Linked v (j :: rest) owner i) :
    Linked {v with backlog := later,conns := Function.update v.conns fd (some d)} rest (Function.update owner fd (some j)) i := by
  obtain ⟨c,held,flags⟩ := linked
  refine ⟨c,?_,flags⟩
  cases held with
  | serves other who what =>
    have different : other ≠ fd := by
      rintro rfl
      cases free.symm.trans what
    exact .serves other ((Function.update_of_ne different _ _).trans who) ((Function.update_of_ne different _ _).trans what)
  | waits k who what =>
    rw [first] at what
    cases k with
    | zero =>
      cases who
      cases what
      exact .serves fd (Function.update_self ..) (Function.update_self ..)
    | succ k => exact .waits k who what

theorem linked_closes (gone : ∀ c, v.conns fd = some c → c.closed = true ∨ c.failed = true) (linked : Linked v queue owner i) :
    Linked {v with conns := Function.update v.conns fd none} queue (Function.update owner fd none) i := by
  obtain ⟨c,held,opened,whole⟩ := linked
  refine ⟨c,?_,opened,whole⟩
  cases held with
  | waits k who what => exact .waits k who what
  | serves other who what =>
    have different : other ≠ fd := by
      rintro rfl
      rcases gone c what with ended | reset
      · cases opened.symm.trans ended
      · cases whole.symm.trans reset
    exact .serves other ((Function.update_of_ne different _ _).trans who) ((Function.update_of_ne different _ _).trans what)

theorem linked_onward (seats : Seated v queue owner dialled) (change : Change v input after)
    (lost : ∀ fd b, v.conns fd = some b → after.conns fd = none → b.closed = true ∨ b.failed = true)
    (linked : Linked v queue owner i) :
    Linked after (queue.drop (v.backlog.length - after.backlog.length)) (owners v after queue owner) i := by
  cases change with
  | quiet =>
    rw [Nat.sub_self,List.drop_zero,owners_same seats fun _ => rfl]
    exact linked
  | writes fd text =>
    have same : owners v {v with writes := v.writes ++ [(fd,text)]} queue owner = owner := owners_same seats fun _ => rfl
    rw [Nat.sub_self,List.drop_zero,same]
    obtain ⟨c,held,flags⟩ := linked
    refine ⟨c,?_,flags⟩
    cases held with
    | waits k who what => exact .waits k who what
    | serves fd who what => exact .serves fd who what
  | accepts first free =>
    rename_i b later fd
    obtain ⟨j,rest,queued,_⟩ := seated_accepts seats first fd
    have length : v.backlog.length - later.length = 1 := by rw [first,List.length_cons]; omega
    rw [length,owners_opens seats rfl free,queued]
    rw [queued] at linked
    exact linked_accepts first free linked
  | closes fd =>
    rw [Nat.sub_self,List.drop_zero,owners_closes seats rfl]
    exact linked_closes (fun c opened => lost fd c opened (Function.update_self ..)) linked
  | reads found data =>
    rename_i fd b chunk
    have same : ∀ k, (Function.update v.conns fd (some b.afterRead) k).isSome = (v.conns k).isSome := isSome_change found b.afterRead
    rw [Nat.sub_self,List.drop_zero,owners_same seats same]
    exact linked_changes found rfl rfl linked

end Seats

section Rooms

variable [DecidableEq ι] {service : Service σ α} {inv : σ → Prop} {r next : Room ι σ} {server : σ}

omit [DecidableEq ι] in
theorem texts_append (log : List (Publication ι (Said ι))) (entry : Publication ι (Said ι)) (i : ι) :
    texts service (log ++ [entry]) i =
      texts service log i ++ if entry.audience i then [service.shape entry.message.fd entry.message.chunk] else [] := by
  cases meant : entry.audience i <;> simp [texts,meant]

theorem saidBy_append (log : List (Publication ι (Said ι))) (entry : Publication ι (Said ι)) (i : ι) :
    saidBy (log ++ [entry]) i = saidBy log i ++ if entry.message.sender = i then entry.message.chunk else [] := by
  by_cases same : entry.message.sender = i <;> simp [saidBy,same]

theorem still_owed (lawful : Lawful service inv) (valid : inv s) (stepped : service.step s action = some after)
    (silent : service.reads s action = none) (same : (service.view after).writes = (service.view s).writes)
    (live : service.live after = true) (fd : Nat) : service.owed after fd = service.owed s fd := by
  have relays := lawful.relay.relays s action after valid stepped live fd
  simpa [Service.published,silent,Service.got,same] using relays

theorem user_valid (valid : Valid service inv r) (here : r.dialled i = true)
    (front : heard (r.users i) action <+: r.down i) (moved : ChatRelay.step (r.users i) action = some user) :
    Valid service inv {r with
      users := Function.update r.users i user
      up := Function.update r.up i (r.up i ++ put (r.users i) action)
      down := Function.update r.down i ((r.down i).drop (heard (r.users i) action).length)} := by
  obtain ⟨received,sent⟩ := user_streams moved
  refine ⟨valid.inv,valid.seats,?_,?_,valid.front,valid.owed,valid.away,?_,?_,?_⟩
  · intro j
    by_cases equal : j = i
    · subst equal
      simp only [Function.update_self]
      exact ChatRelay.relayed_preserved (valid.relayed j) moved
    · simp only [Function.update_of_ne equal]
      exact valid.relayed j
  · intro j
    by_cases equal : j = i
    · subst equal
      obtain ⟨rest,whole⟩ := front
      simp only [Function.update_self]
      rw [received,← valid.down j,← whole,List.drop_left,List.append_assoc]
    · simp only [Function.update_of_ne equal]
      exact valid.down j
  · intro j
    by_cases equal : j = i
    · subst equal
      simp only [Function.update_self]
      rw [sent]
      exact (valid.said j).trans (List.prefix_append _ _)
    · simp only [Function.update_of_ne equal]
      exact valid.said j
  · intro live j c held
    by_cases equal : j = i
    · subst equal
      simp only [Function.update_self]
      rw [sent,valid.carried live j c held]
      simp only [List.append_assoc]
    · simp only [Function.update_of_ne equal]
      exact valid.carried live j c held
  · intro j unseen
    have different : j ≠ i := by
      rintro rfl
      cases unseen.symm.trans here
    simp only [Function.update_of_ne different]
    exact valid.fresh j unseen

theorem dial_valid (lawful : Lawful service inv) (valid : Valid service inv r) (first : r.dialled i = false)
    (moved : service.step r.server service.connect = some server) :
    Valid service inv {r with server,dialled := Function.update r.dialled i true,queue := r.queue ++ [i]} := by
  obtain ⟨silent,view⟩ := lawful.connects r.server server moved
  have running := lawful.relay.running r.server service.connect server moved
  have owed := still_owed lawful valid.inv moved silent (by rw [view])
  refine ⟨lawful.relay.kept _ _ _ valid.inv moved,?_,valid.relayed,valid.down,valid.front,?_,?_,valid.said,?_,?_⟩
  · rw [view]
    exact seated_dials valid.seats first Conn.fresh
  · intro live j fd who
    rw [owed live]
    exact valid.owed running j fd who
  · intro live j nowhere
    exact valid.away running j nowhere
  · intro live j c held
    rw [view] at held
    rcases held_dials valid.seats held with ⟨rfl,rfl⟩ | held
    · obtain ⟨nothing,unsaid,empty⟩ := valid.fresh j first
      simp only [nothing,unsaid,empty]
      rfl
    · exact valid.carried running j c held
  · intro j unseen
    by_cases equal : j = i
    · subst equal
      exact valid.fresh j first
    · simp only [Function.update_of_ne equal] at unseen
      exact valid.fresh j unseen

theorem carry_valid (lawful : Lawful service inv) (valid : Valid service inv r) (moved : service.step r.server action = some server)
    (silent : service.reads r.server action = none) (writes : (service.view server).writes = (service.view r.server).writes)
    (seats : Seated (service.view server) r.queue r.owner r.dialled) (front : event.bytes <+: r.up i)
    (source : Held (service.view r.server) r.queue r.owner i c) (peer : Conn.peer c event = some d)
    (others : ∀ j e, Held (service.view server) r.queue r.owner j e →
      (j = i ∧ e = d) ∨ (j ≠ i ∧ Held (service.view r.server) r.queue r.owner j e)) :
    Valid service inv {r with server,up := Function.update r.up i ((r.up i).drop event.bytes.length)} := by
  have running := lawful.relay.running r.server action server moved
  have owed := still_owed lawful valid.inv moved silent writes
  refine ⟨lawful.relay.kept _ _ _ valid.inv moved,seats,valid.relayed,valid.down,valid.front,?_,?_,valid.said,?_,?_⟩
  · intro live j fd who
    rw [owed live]
    exact valid.owed running j fd who
  · intro live j nowhere
    exact valid.away running j nowhere
  · intro live j e held
    rcases others j e held with ⟨rfl,rfl⟩ | ⟨different,held⟩
    · obtain ⟨rest,whole⟩ := front
      simp only [Function.update_self]
      rw [valid.carried running j c source,peer_unread peer,← whole,List.drop_left,List.append_assoc _ event.bytes]
    · simp only [Function.update_of_ne different]
      exact valid.carried running j e held
  · intro j unseen
    have different : j ≠ i := by
      rintro rfl
      cases unseen.symm.trans (held_dialled valid.seats source)
    simp only [Function.update_of_ne different]
    exact valid.fresh j unseen

theorem change_writes (change : Change v input after) : ∃ fresh, after.writes = v.writes ++ fresh := by
  cases change with
  | writes fd text => exact ⟨[(fd,text)],rfl⟩
  | _ => exact ⟨[],(List.append_nil _).symm⟩

theorem routed_seat {owner : Nat → Option ι} (single : ∀ fd other i, owner fd = some i → owner other = some i → fd = other)
    (who : owner fd = some i) (sent : List (Nat × Bytes)) : routed owner sent i = sentTo sent fd := by
  have same : ∀ entry ∈ sent, decide (owner entry.1 = some i) = decide (entry.1 = fd) := by
    intro entry _
    refine decide_eq_decide.mpr ⟨fun mine => single _ _ _ mine who,?_⟩
    intro equal
    rw [equal,who]
  rw [routed,sentTo,List.filter_congr same]

theorem routed_away {owner : Nat → Option ι} (nowhere : ∀ fd, owner fd ≠ some i) (sent : List (Nat × Bytes)) :
    routed owner sent i = [] := by
  simp [routed,nowhere]

theorem audience_seat (lawful : Lawful service inv) (valid : Valid service inv r) (who : r.owner fd = some i) :
    audience service r i = service.member r.server fd := by
  rw [Bool.eq_iff_iff,audience,List.any_eq_true]
  constructor
  · rintro ⟨other,_,both⟩
    obtain ⟨mine,member⟩ := Bool.and_eq_true_iff.mp both
    rwa [valid.seats.single fd other i who (of_decide_eq_true mine)]
  · intro member
    refine ⟨fd,List.mem_range.mpr (lawful.inside r.server fd valid.inv member),?_⟩
    rw [member,who]
    simp

theorem audience_away (nowhere : ∀ fd, r.owner fd ≠ some i) : audience service r i = false := by
  simp [audience,nowhere]

theorem spoken_read (read : service.reads r.server action = some (fd,chunk)) (who : r.owner fd = some j) :
    spoken service r action = (service.text fd chunk).map fun _ => ⟨⟨j,fd,chunk⟩,audience service r⟩ := by
  rw [spoken,read,Option.bind_some,who,Option.bind_some]

theorem spoken_silent (silent : service.reads r.server action = none) : spoken service r action = none := by
  rw [spoken,silent,Option.bind_none]

theorem reader_seat (valid : Valid service inv r)
    (change : Change (service.view r.server) (service.reads r.server action) after)
    (read : service.reads r.server action = some (fd,chunk)) : ∃ j, r.owner fd = some j := by
  rw [read] at change
  cases change with
  | reads opened data => exact Option.isSome_iff_exists.mp ((valid.seats.opened fd).trans (by rw [opened]; rfl))

-- What the log gets for a client is what the server publishes for its descriptor.
theorem texts_moved (lawful : Lawful service inv) (valid : Valid service inv r)
    (change : Change (service.view r.server) (service.reads r.server action) after) :
    (∀ i fd, r.owner fd = some i → texts service (r.log ++ (spoken service r action).toList) i =
      texts service r.log i ++ due (service.published r.server action) fd) ∧
    (∀ i, (∀ fd, r.owner fd ≠ some i) → texts service (r.log ++ (spoken service r action).toList) i = texts service r.log i) := by
  cases read : service.reads r.server action with
  | none => simp [spoken_silent read,Service.published,read]
  | some entry =>
    obtain ⟨fd,chunk⟩ := entry
    obtain ⟨j,who⟩ := reader_seat valid change read
    rw [spoken_read read who]
    cases printed : service.text fd chunk with
    | none => simp [Service.published,read,printed]
    | some text =>
      simp only [Option.map_some,Option.toList_some,texts_append]
      constructor
      · intro i other mine
        rw [audience_seat lawful valid mine,← lawful.shaped fd chunk text printed]
        simp [Service.published,read,printed]
      · intro i nowhere
        simp [audience_away nowhere]

theorem said_other (others : ∀ fd chunk, service.reads r.server action = some (fd,chunk) → r.owner fd ≠ some i) :
    saidBy (r.log ++ (spoken service r action).toList) i = saidBy r.log i := by
  cases read : service.reads r.server action with
  | none => rw [spoken_silent read,Option.toList_none,List.append_nil]
  | some entry =>
    obtain ⟨fd,chunk⟩ := entry
    cases who : r.owner fd with
    | none => simp [spoken,read,who]
    | some j =>
      have different : j ≠ i := by
        rintro rfl
        exact others fd chunk read who
      rw [spoken_read read who]
      cases service.text fd chunk with
      | none => simp
      | some text => simp [saidBy_append,different]

theorem said_reader (read : service.reads r.server action = some (fd,chunk)) (who : r.owner fd = some i) :
    saidBy (r.log ++ (spoken service r action).toList) i =
      saidBy r.log i ++ if (service.text fd chunk).isSome then chunk else [] := by
  rw [spoken_read read who]
  cases service.text fd chunk with
  | none => simp
  | some text => simp [saidBy_append]

theorem told_moved (lawful : Lawful service inv) (valid : Valid service inv r)
    (change : Change (service.view r.server) (service.reads r.server action) (service.view server))
    (stepped : service.step r.server action = some server) (live : service.live server = true) :
    (∀ i fd, r.owner fd = some i → (moved service r action server).told i ++ service.owed server fd =
      texts service (moved service r action server).log i) ∧
    (∀ i, (∀ fd, r.owner fd ≠ some i) →
      (moved service r action server).told i = texts service (moved service r action server).log i) := by
  have running := lawful.relay.running r.server action server stepped
  obtain ⟨seated,away⟩ := texts_moved lawful valid change
  obtain ⟨fresh,writes⟩ := change_writes change
  constructor
  · intro i fd who
    have relays := lawful.relay.relays r.server action server valid.inv stepped live fd
    have sent : service.got server fd = service.got r.server fd ++ sentTo fresh fd := by
      rw [Service.got,Service.got,writes]
      simp [sentTo]
    rw [sent,List.append_assoc,List.append_assoc,List.append_cancel_left_eq] at relays
    simp only [moved,writes,List.drop_left]
    rw [seated i fd who,routed_seat valid.seats.single who,List.append_assoc,relays,← valid.owed running i fd who,List.append_assoc]
  · intro i nowhere
    simp only [moved]
    rw [away i nowhere,routed_away nowhere,List.append_nil]
    exact valid.away running i nowhere

theorem front_moved (lawful : Lawful service inv) (valid : Valid service inv r)
    (change : Change (service.view r.server) (service.reads r.server action) (service.view server))
    (stepped : service.step r.server action = some server) (i : ι) :
    (moved service r action server).told i <+: texts service (moved service r action server).log i := by
  by_cases live : service.live server = true
  · obtain ⟨seated,away⟩ := told_moved lawful valid change stepped live
    by_cases somewhere : ∃ fd, r.owner fd = some i
    · obtain ⟨fd,who⟩ := somewhere
      exact ⟨_,seated i fd who⟩
    · have told := away i (not_exists.mp somewhere)
      exact ⟨[],by rw [List.append_nil,told]⟩
  · have halted := lawful.relay.halts r.server action server valid.inv stepped live
    obtain ⟨fresh,writes⟩ := change_writes change
    have nothing : routed r.owner fresh i = [] := by
      by_cases somewhere : ∃ fd, r.owner fd = some i
      · obtain ⟨fd,who⟩ := somewhere
        have same := congrFun halted fd
        simp only [Service.got,writes,sentTo,List.filter_append,List.map_append,List.append_right_eq_self] at same
        rw [routed_seat valid.seats.single who]
        exact same
      · exact routed_away (not_exists.mp somewhere) fresh
    obtain ⟨seated,away⟩ := texts_moved lawful valid change
    simp only [moved,writes,List.drop_left,nothing,List.append_nil]
    by_cases somewhere : ∃ fd, r.owner fd = some i
    · obtain ⟨fd,who⟩ := somewhere
      rw [seated i fd who]
      exact (valid.front i).trans (List.prefix_append _ _)
    · rw [away i (not_exists.mp somewhere)]
      exact valid.front i

-- A client that has just come from the backlog is owed nothing yet, and one that
-- has lost its descriptor was owed nothing.
theorem owed_moved (lawful : Lawful service inv) (valid : Valid service inv r)
    (change : Change (service.view r.server) (service.reads r.server action) (service.view server))
    (stepped : service.step r.server action = some server) (live : service.live server = true) (i : ι) :
    (∀ fd, (moved service r action server).owner fd = some i → (moved service r action server).told i ++ service.owed server fd =
      texts service (moved service r action server).log i) ∧
    ((∀ fd, (moved service r action server).owner fd ≠ some i) →
      (moved service r action server).told i = texts service (moved service r action server).log i) := by
  obtain ⟨seated,away⟩ := told_moved lawful valid change stepped live
  constructor
  · intro fd who
    rcases owners_found who with old | ⟨first,opens⟩
    · exact seated i fd old
    · have nowhere : ∀ other, r.owner other ≠ some i :=
        fun other mine => valid.seats.apart other i mine (List.mem_of_head? first)
      have nothing := lawful.between r.server action server fd stepped opens fd
      rw [nothing,List.append_nil]
      exact away i nowhere
  · intro nowhere
    by_cases somewhere : ∃ fd, r.owner fd = some i
    · obtain ⟨fd,who⟩ := somewhere
      have closes := owners_lost valid.seats who (nowhere fd)
      have nothing := lawful.between r.server action server fd stepped closes fd
      have told := seated i fd who
      rwa [nothing,List.append_nil] at told
    · exact away i (not_exists.mp somewhere)

theorem said_moved (lawful : Lawful service inv) (valid : Valid service inv r)
    (change : Change (service.view r.server) (service.reads r.server action) (service.view server))
    (stepped : service.step r.server action = some server) (i : ι) :
    saidBy (moved service r action server).log i <+: taken .socket (r.users i).calls := by
  have running := lawful.relay.running r.server action server stepped
  show saidBy (r.log ++ (spoken service r action).toList) i <+: _
  by_cases mine : ∃ fd chunk, service.reads r.server action = some (fd,chunk) ∧ r.owner fd = some i
  · obtain ⟨fd,chunk,read,who⟩ := mine
    rw [said_reader read who]
    rw [read] at change
    generalize service.view server = after at change
    cases change with
    | reads opened data =>
      rw [valid.carried running i _ (.serves fd who opened),List.prefix_append_right_inj]
      split
      · rw [(read_data data).2.2,List.append_assoc]
        exact List.prefix_append _ _
      · exact List.nil_prefix
  · rw [said_other fun fd chunk read who => mine ⟨fd,chunk,read,who⟩]
    exact valid.said i

theorem carried_moved (lawful : Lawful service inv) (valid : Valid service inv r)
    (change : Change (service.view r.server) (service.reads r.server action) (service.view server))
    (stepped : service.step r.server action = some server) (live : service.live server = true)
    (now : Held (service.view server) (moved service r action server).queue (moved service r action server).owner i c) :
    taken .socket (r.users i).calls = saidBy (moved service r action server).log i ++ (c.unread ++ r.up i) := by
  have running := lawful.relay.running r.server action server stepped
  show _ = saidBy (r.log ++ (spoken service r action).toList) i ++ _
  rcases (seats_change valid.seats change).2 i c now with ⟨before,others⟩ | ⟨fd,chunk,b,read,who,opened,data,rfl⟩
  · rw [said_other others]
    exact valid.carried running i c before
  · have printed := lawful.printed r.server action server fd chunk valid.inv stepped read live
    rw [said_reader read who,if_pos printed,valid.carried running i b (.serves fd who opened),(read_data data).2.2]
    simp only [List.append_assoc]

theorem main_valid (lawful : Lawful service inv) (valid : Valid service inv r) (mains : service.mains action = true)
    (stepped : service.step r.server action = some server) : Valid service inv (moved service r action server) := by
  have change := lawful.turns r.server action server valid.inv mains stepped
  refine ⟨lawful.relay.kept _ _ _ valid.inv stepped,(seats_change valid.seats change).1,valid.relayed,?_,
    front_moved lawful valid change stepped,?_,?_,said_moved lawful valid change stepped,?_,?_⟩
  · intro i
    simp only [moved]
    rw [← List.append_assoc,valid.down i,List.flatten_append]
  · exact fun live i => (owed_moved lawful valid change stepped live i).1
  · exact fun live i => (owed_moved lawful valid change stepped live i).2
  · exact fun live i c => carried_moved lawful valid change stepped live
  · intro i unseen
    have others : ∀ fd chunk, service.reads r.server action = some (fd,chunk) → r.owner fd ≠ some i := by
      intro fd chunk _ who
      cases unseen.symm.trans (valid.seats.seated fd i who)
    show _ ∧ saidBy (r.log ++ (spoken service r action).toList) i = [] ∧ _
    rw [said_other others]
    exact valid.fresh i unseen

theorem carry_parts (carried : carry service r i event action = some next) : ∃ server, event.bytes <+: r.up i ∧
    service.step r.server action = some server ∧
      next = {r with server,up := Function.update r.up i ((r.up i).drop event.bytes.length)} := by
  obtain ⟨front,moved⟩ := Option.ite_none_right_eq_some.mp carried
  obtain ⟨server,stepped,rfl⟩ := Option.map_eq_some_iff.mp moved
  exact ⟨server,front,stepped,rfl⟩

theorem valid_preserved (lawful : Lawful service inv) (valid : Valid service inv r) (stepped : step service r action = some next) :
    Valid service inv next := by
  cases action with
  | dial i =>
    obtain ⟨first,rest⟩ := Option.ite_none_left_eq_some.mp stepped
    obtain ⟨server,moved,rfl⟩ := Option.map_eq_some_iff.mp rest
    exact dial_valid lawful valid (Bool.eq_false_iff.mpr first) moved
  | user i action =>
    obtain ⟨⟨here,front⟩,rest⟩ := Option.ite_none_right_eq_some.mp stepped
    obtain ⟨user,moved,rfl⟩ := Option.map_eq_some_iff.mp rest
    exact user_valid valid here front moved
  | pending k event =>
    obtain ⟨i,who,carried⟩ := Option.bind_eq_some_iff.mp stepped
    obtain ⟨server,front,moved,rfl⟩ := carry_parts carried
    obtain ⟨silent,c,d,opened,peer,view⟩ := lawful.pends r.server k event server moved
    have seats : Seated (service.view server) r.queue r.owner r.dialled := by
      rw [view]
      exact seated_same valid.seats List.length_set fun _ => rfl
    refine carry_valid lawful valid moved silent (by rw [view]) seats front (.waits k who opened) peer ?_
    intro j e held
    rw [view] at held
    exact held_pends valid.seats who held
  | peer fd event =>
    obtain ⟨i,who,carried⟩ := Option.bind_eq_some_iff.mp stepped
    obtain ⟨server,front,moved,rfl⟩ := carry_parts carried
    obtain ⟨silent,c,d,opened,peer,view⟩ := lawful.peers r.server fd event server moved
    have seats : Seated (service.view server) r.queue r.owner r.dialled := by
      rw [view]
      exact seated_same valid.seats rfl (isSome_change opened d)
    refine carry_valid lawful valid moved silent (by rw [view]) seats front (.serves fd who opened) peer ?_
    intro j e held
    rw [view] at held
    exact held_changes valid.seats who held
  | main action =>
    obtain ⟨mains,rest⟩ := Option.ite_none_right_eq_some.mp stepped
    obtain ⟨server,moved,rfl⟩ := Option.map_eq_some_iff.mp rest
    exact main_valid lawful valid mains moved

theorem server_step (stepped : step service r action = some next) :
    next.server = r.server ∨ ∃ other, service.step r.server other = some next.server := by
  cases action with
  | dial i =>
    obtain ⟨_,rest⟩ := Option.ite_none_left_eq_some.mp stepped
    obtain ⟨server,moved,rfl⟩ := Option.map_eq_some_iff.mp rest
    exact .inr ⟨_,moved⟩
  | user i action =>
    obtain ⟨_,rest⟩ := Option.ite_none_right_eq_some.mp stepped
    obtain ⟨user,_,rfl⟩ := Option.map_eq_some_iff.mp rest
    exact .inl rfl
  | pending k event | peer k event =>
    obtain ⟨i,_,carried⟩ := Option.bind_eq_some_iff.mp stepped
    obtain ⟨server,_,moved,rfl⟩ := carry_parts carried
    exact .inr ⟨_,moved⟩
  | main action =>
    obtain ⟨_,rest⟩ := Option.ite_none_right_eq_some.mp stepped
    obtain ⟨server,moved,rfl⟩ := Option.map_eq_some_iff.mp rest
    exact .inr ⟨_,moved⟩

theorem run_server {kept : σ → Prop} (start : kept service.start)
    (keeps : ∀ s action next, kept s → service.step s action = some next → kept next)
    (ran : run (step service) (opening service) actions = some r) : kept r.server := by
  let Keeps (r : Room ι σ) : Prop := kept r.server
  have onward : ∀ r action next, Keeps r → step service r action = some next → Keeps next := by
    intro r action next here stepped
    rcases server_step stepped with same | ⟨other,moved⟩
    · show kept next.server
      rw [same]
      exact here
    · exact keeps r.server other next.server here moved
  have begun : Keeps (opening service) := start
  have held : Keeps r := run_invariant onward begun ran
  exact held

theorem run_valid (lawful : Lawful service inv) (ran : run (step service) (opening service) actions = some r) :
    Valid service inv r :=
  run_invariant (fun _ _ _ valid stepped => valid_preserved lawful valid stepped) (opening_valid lawful) ran

theorem run_log (lawful : Lawful service inv) {good : Publication ι (Said ι) → Prop}
    (each : ∀ r action entry, Valid service inv r → spoken service r action = some entry → good entry)
    (ran : run (step service) (opening service) actions = some r) : ∀ entry ∈ r.log, good entry := by
  let Kept (r : Room ι σ) : Prop := Valid service inv r ∧ ∀ entry ∈ r.log, good entry
  have keeps : ∀ r action next, Kept r → step service r action = some next → Kept next := by
    intro r action next kept stepped
    refine ⟨valid_preserved lawful kept.1 stepped,?_⟩
    cases action with
    | dial i =>
      obtain ⟨_,rest⟩ := Option.ite_none_left_eq_some.mp stepped
      obtain ⟨server,_,rfl⟩ := Option.map_eq_some_iff.mp rest
      exact kept.2
    | user i action =>
      obtain ⟨_,rest⟩ := Option.ite_none_right_eq_some.mp stepped
      obtain ⟨user,_,rfl⟩ := Option.map_eq_some_iff.mp rest
      exact kept.2
    | pending k event | peer k event =>
      obtain ⟨i,_,carried⟩ := Option.bind_eq_some_iff.mp stepped
      obtain ⟨server,_,_,rfl⟩ := carry_parts carried
      exact kept.2
    | main action =>
      obtain ⟨_,rest⟩ := Option.ite_none_right_eq_some.mp stepped
      obtain ⟨server,_,rfl⟩ := Option.map_eq_some_iff.mp rest
      refine List.forall_mem_append.mpr ⟨kept.2,?_⟩
      intro entry member
      exact each r action entry kept.1 (Option.mem_toList.mp member)
  have begun : Kept (opening service) := ⟨opening_valid lawful,nofun⟩
  exact (run_invariant keeps begun ran).2

omit [DecidableEq ι] in
theorem relayed_fronts {u : ChatRelay.State} (relayed : Relayed u) :
    taken .out u.calls <+: u.received ∧ taken .socket u.calls <+: u.typed := by
  have passed_front : ∀ fd, taken fd u.calls <+: passed fd u.calls := by
    intro fd
    obtain ⟨lost,whole,_⟩ := ChatRelay.complete_lost relayed.complete fd
    exact ⟨lost,whole.symm⟩
  constructor
  · rw [relayed.out]
    exact (passed_front .out).trans (List.prefix_append _ _)
  · rw [relayed.socket]
    exact (passed_front .socket).trans (List.prefix_append _ _)

-- An output has a front of what the log holds for its client, byte for byte.
theorem screen_front (valid : Valid service inv r) (i : ι) : screen r i <+: (texts service r.log i).flatten := by
  have shown := (relayed_fronts (valid.relayed i)).1
  have received : (r.users i).received <+: (r.told i).flatten := ⟨r.down i,valid.down i⟩
  obtain ⟨rest,whole⟩ := valid.front i
  have told : (r.told i).flatten <+: (texts service r.log i).flatten := by
    rw [← whole,List.flatten_append]
    exact List.prefix_append _ _
  exact shown.trans (received.trans told)

omit [DecidableEq ι] in
theorem texts_congr {log : List (Publication ι (Said ι))} (same : ∀ entry ∈ log, entry.audience i = entry.audience j) :
    texts service log i = texts service log j := by
  rw [texts,due_congr same,texts]

theorem screens_agree (valid : Valid service inv r) (same : ∀ entry ∈ r.log, entry.audience i = entry.audience j) :
    screen r i <+: screen r j ∨ screen r j <+: screen r i := by
  have front := screen_front valid i
  rw [texts_congr same] at front
  exact List.prefix_or_prefix_of_prefix front (screen_front valid j)

theorem typed_front (valid : Valid service inv r) (i : ι) : saidBy r.log i <+: (r.users i).typed :=
  (valid.said i).trans (relayed_fronts (valid.relayed i)).2

-- A client with a connection, nothing of whose is on its way in either
-- direction, and who is waiting in select.
structure Rested (service : Service σ α) (r : Room ι σ) (i : ι) : Prop where
  live : service.live r.server = true
  seat : ∃ fd c, r.owner fd = some i ∧ (service.view r.server).conns fd = some c ∧ c.unread = [] ∧ service.owed r.server fd = []
  up : r.up i = []
  down : r.down i = []
  idle : (r.users i).pc = .select

-- A client that has written all it has in hand, with nothing on its way either way.
theorem seat_whole (valid : Valid service inv r) (live : service.live r.server = true) (who : r.owner fd = some i)
    (opened : (service.view r.server).conns fd = some c) (read : c.unread = []) (nothing : service.owed r.server fd = [])
    (up : r.up i = []) (down : r.down i = []) (quiet : Quiet (r.users i).pc) (running : (r.users i).pc ≠ .stopped) :
    screen r i = (texts service r.log i).flatten ∧ saidBy r.log i = (r.users i).typed := by
  obtain ⟨received,typed,whole⟩ := ChatRelay.idle_relayed (valid.relayed i) quiet running
  have told := valid.owed live i fd who
  rw [nothing,List.append_nil] at told
  have shown := valid.down i
  rw [down,List.append_nil,received,told] at shown
  have carried := valid.carried live i c (.serves fd who opened)
  rw [read,up,List.append_nil,List.append_nil,ChatRelay.whole_taken whole,← typed] at carried
  exact ⟨by rw [screen,ChatRelay.whole_taken whole,shown],carried.symm⟩

-- Then its output has all that the log holds for it, and the log all it typed.
theorem rested_whole (valid : Valid service inv r) (rested : Rested service r i) :
    screen r i = (texts service r.log i).flatten ∧ saidBy r.log i = (r.users i).typed := by
  obtain ⟨fd,c,who,opened,read,nothing⟩ := rested.seat
  have quiet : Quiet (r.users i).pc := by rw [rested.idle]; exact trivial
  have running : (r.users i).pc ≠ .stopped := by rw [rested.idle]; exact nofun
  exact seat_whole valid rested.live who opened read nothing rested.up rested.down quiet running

end Rooms

end NetworkEx.ChatRoom
