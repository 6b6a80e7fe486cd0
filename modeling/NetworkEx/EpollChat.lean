import Mathlib.Logic.Function.Basic
import NetworkEx.ChatSockets
import NetworkEx.TransitionRuns

namespace NetworkEx.EpollChat
open ByteStreams CText ChatSockets TransitionRuns

def EPOLL_SIZE : Nat := 20

structure Udata where
  fd : Nat
  name : Bytes
  deriving DecidableEq

-- epoll_data as main fills it: the listening descriptor, or a block's address.
-- No address is taken for the listening descriptor.
inductive Data where
  | listen
  | ptr (addr : Nat)
  deriving DecidableEq

-- Where main stands: with the events of the batch still to be handled, an empty
-- rest being the call of epoll_wait, or inside the loop of send_msg.
inductive Pc where
  | batch (events : List Data)
  | broadcast (addr : Nat) (text : Bytes) (i : Nat) (rest : List Data)
  | killed
  | wild
  deriving DecidableEq

-- `interest` is the kernel's set, by descriptor the address registered with it;
-- `heap` the live udata blocks. `wild` is an access outside an array or to a
-- freed block: nothing is known after it.
structure State where
  pc : Pc
  backlog : List Conn
  conns : Nat → Option Conn
  interest : Nat → Option Nat
  heap : Nat → Option Udata
  userFds : Nat → Int
  writes : List (Nat × Bytes)

def initial : State := ⟨.batch [],[],fun _ => none,fun _ => none,fun _ => none,fun _ => -1,[]⟩

def Pc.live : Pc → Bool
  | .killed | .wild => false
  | _ => true

-- epollWait names the reported descriptors, none for the listening one. A turn
-- of the batch loop has the answer of accept with the address malloc returns.
inductive Action where
  | connect
  | pendingPeer (k : Nat) (event : PeerEvent)
  | peer (fd : Nat) (event : PeerEvent)
  | epollWait (reported : List (Option Nat))
  | handle (accepted : Option (Nat × Nat))
  | write

def userName (fd : Nat) : Bytes := ascii "user(" ++ decimal fd ++ ascii ")"

-- send_msg prints "%s %s" and always writes the whole zeroed buffer.
def lineText (name chunk : Bytes) : Option Bytes := do
  let msg ← received chunk
  let text ← sprintf (MAXLINE + 24) (name ++ [32] ++ msg)
  return overlay text (List.replicate (MAXLINE + 24) 0)

-- The event epoll_wait can report for a registered descriptor that is ready.
def eventOf (s : State) : Option Nat → Option Data
  | none => if s.backlog = [] then none else some .listen
  | some fd =>
    match s.interest fd,s.conns fd with
    | some addr,some c => if c.idle then none else some (.ptr addr)
    | _,_ => none

-- The branch for the listening socket. A -1 of accept is used as an index.
def acceptClient (listenfd : Nat) (s : State) (rest : List Data) : Option (Nat × Nat) → Option State
  | none => some {s with pc := .wild}
  | some (fd,addr) =>
    match s.backlog with
    | [] => none
    | c :: later =>
      if fd ≠ listenfd ∧ (s.conns fd).isNone ∧ (s.heap addr).isNone then
        if fd < maxClients then
          some {s with
            pc := .batch rest,backlog := later,conns := Function.update s.conns fd (some c),
            interest := Function.update s.interest fd (some addr),
            heap := Function.update s.heap addr (some ⟨fd,userName fd⟩),
            userFds := Function.update s.userFds fd 1}
        else some {s with pc := .wild}
      else none

-- EPOLL_CTL_DEL, close, user_fds[fd] = -1 and free.
def removeClient (s : State) (addr fd : Nat) (rest : List Data) : State :=
  {s with
    pc := .batch rest,conns := Function.update s.conns fd none,interest := Function.update s.interest fd none,
    heap := Function.update s.heap addr none,userFds := Function.update s.userFds fd (-1)}

def serveClient (s : State) (addr : Nat) (rest : List Data) : Option State :=
  match s.heap addr with
  | none => some {s with pc := .wild}
  | some user =>
    match s.conns user.fd with
    | none => some (removeClient s addr user.fd rest)
    | some c =>
      match c.read with
      | .data chunk =>
        let after := Function.update s.conns user.fd (some c.afterRead)
        match lineText user.name chunk with
        | none => some {s with pc := .wild,conns := after}
        | some text => some {s with pc := .broadcast addr text 0 rest,conns := after}
      | .error | .eof => some (removeClient s addr user.fd rest)
      | .again => none

def writeTurn (s : State) (addr : Nat) (text : Bytes) (i : Nat) (rest : List Data) : State :=
  if i < maxClients then
    if s.userFds i = 1 then
      match s.conns i with
      | none => {s with pc := .broadcast addr text (i+1) rest}
      | some c =>
        if c.failed then {s with pc := .killed}
        else {s with pc := .broadcast addr text (i+1) rest,writes := s.writes ++ [(i,text)]}
    else {s with pc := .broadcast addr text (i+1) rest}
  else {s with pc := .batch rest}

def step (listenfd : Nat) (s : State) : Action → Option State
  | .connect => if s.pc.live then some {s with backlog := s.backlog ++ [Conn.fresh]} else none
  | .pendingPeer k event =>
    if s.pc.live then
      (s.backlog[k]?).bind fun c => (c.peer event).map fun next => {s with backlog := s.backlog.set k next}
    else none
  | .peer fd event =>
    if s.pc.live then
      (s.conns fd).bind fun c => (c.peer event).map fun next =>
        {s with conns := Function.update s.conns fd (some next)}
    else none
  | .epollWait reported =>
    if s.pc = .batch [] ∧ reported ≠ [] ∧ reported.length ≤ EPOLL_SIZE ∧ reported.Nodup then
      (reported.mapM (eventOf s)).map fun events => {s with pc := .batch events}
    else none
  | .handle accepted =>
    match s.pc with
    | .batch (.listen :: rest) => acceptClient listenfd s rest accepted
    | .batch (.ptr addr :: rest) => serveClient s addr rest
    | _ => none
  | .write =>
    match s.pc with
    | .broadcast addr text i rest => some (writeTurn s addr text i rest)
    | _ => none

inductive Stepped (listenfd : Nat) : State → Action → State → Prop where
  | connect (live : s.pc.live = true) :
      Stepped listenfd s .connect {s with backlog := s.backlog ++ [Conn.fresh]}
  | pendingPeer (live : s.pc.live = true) (pending : s.backlog[k]? = some c) (moved : c.peer event = some next) :
      Stepped listenfd s (.pendingPeer k event) {s with backlog := s.backlog.set k next}
  | peer (live : s.pc.live = true) (opened : s.conns fd = some c) (moved : c.peer event = some next) :
      Stepped listenfd s (.peer fd event) {s with conns := Function.update s.conns fd (some next)}
  | epollWait (waiting : s.pc = .batch []) (single : reported.Nodup) (events : reported.mapM (eventOf s) = some batch) :
      Stepped listenfd s (.epollWait reported) {s with pc := .batch batch}
  | acceptFails (here : s.pc = .batch (.listen :: rest)) :
      Stepped listenfd s (.handle none) {s with pc := .wild}
  | overindexes (here : s.pc = .batch (.listen :: rest)) (large : ¬ fd < maxClients) :
      Stepped listenfd s (.handle (some (fd,addr))) {s with pc := .wild}
  | accepts (here : s.pc = .batch (.listen :: rest)) (first : s.backlog = c :: later) (other : fd ≠ listenfd)
      (free : s.conns fd = none) (unused : s.heap addr = none) (small : fd < maxClients) :
      Stepped listenfd s (.handle (some (fd,addr))) {s with
        pc := .batch rest,backlog := later,conns := Function.update s.conns fd (some c),
        interest := Function.update s.interest fd (some addr),
        heap := Function.update s.heap addr (some ⟨fd,userName fd⟩),userFds := Function.update s.userFds fd 1}
  | usesFreed (here : s.pc = .batch (.ptr addr :: rest)) (freed : s.heap addr = none) :
      Stepped listenfd s (.handle accepted) {s with pc := .wild}
  | overreads (here : s.pc = .batch (.ptr addr :: rest)) (block : s.heap addr = some user)
      (opened : s.conns user.fd = some c) (data : c.read = .data chunk) (unprinted : lineText user.name chunk = none) :
      Stepped listenfd s (.handle accepted)
        {s with pc := .wild,conns := Function.update s.conns user.fd (some c.afterRead)}
  | reads (here : s.pc = .batch (.ptr addr :: rest)) (block : s.heap addr = some user)
      (opened : s.conns user.fd = some c) (data : c.read = .data chunk)
      (printed : lineText user.name chunk = some text) :
      Stepped listenfd s (.handle accepted)
        {s with pc := .broadcast addr text 0 rest,conns := Function.update s.conns user.fd (some c.afterRead)}
  | removes (here : s.pc = .batch (.ptr addr :: rest)) (block : s.heap addr = some user)
      (ended : s.conns user.fd = none ∨ ∃ c, s.conns user.fd = some c ∧ (c.read = .error ∨ c.read = .eof)) :
      Stepped listenfd s (.handle accepted) (removeClient s addr user.fd rest)
  | skips (looping : s.pc = .broadcast addr text i rest) (inside : i < maxClients)
      (silent : s.userFds i ≠ 1 ∨ s.conns i = none) :
      Stepped listenfd s .write {s with pc := .broadcast addr text (i+1) rest}
  | breaks (looping : s.pc = .broadcast addr text i rest) (inside : i < maxClients) (member : s.userFds i = 1)
      (opened : s.conns i = some c) (broken : c.failed = true) :
      Stepped listenfd s .write {s with pc := .killed}
  | writes (looping : s.pc = .broadcast addr text i rest) (inside : i < maxClients) (member : s.userFds i = 1)
      (opened : s.conns i = some c) (whole : c.failed = false) :
      Stepped listenfd s .write {s with pc := .broadcast addr text (i+1) rest,writes := s.writes ++ [(i,text)]}
  | finishes (looping : s.pc = .broadcast addr text i rest) (outside : ¬ i < maxClients) :
      Stepped listenfd s .write {s with pc := .batch rest}

theorem acceptClient_sound (here : s.pc = .batch (.listen :: rest))
    (ran : acceptClient listenfd s rest accepted = some next) : Stepped listenfd s (.handle accepted) next := by
  unfold acceptClient at ran
  split at ran
  · cases ran; exact .acceptFails here
  · rename_i fd addr
    split at ran
    · cases ran
    · rename_i c later first
      split at ran
      · rename_i checked
        split at ran
        · rename_i small
          cases ran
          exact .accepts here first checked.1 (Option.isNone_iff_eq_none.mp checked.2.1)
            (Option.isNone_iff_eq_none.mp checked.2.2) small
        · rename_i large; cases ran; exact .overindexes here large
      · cases ran

theorem serveClient_sound (here : s.pc = .batch (.ptr addr :: rest)) (ran : serveClient s addr rest = some next) :
    Stepped listenfd s (.handle accepted) next := by
  unfold serveClient at ran
  split at ran
  · rename_i freed; cases ran; exact .usesFreed here freed
  · rename_i user block
    split at ran
    · rename_i gone; cases ran; exact .removes here block (.inl gone)
    · rename_i c opened
      split at ran
      · rename_i chunk data
        dsimp only at ran
        split at ran
        · rename_i unprinted; cases ran; exact .overreads here block opened data unprinted
        · rename_i text printed; cases ran; exact .reads here block opened data printed
      · rename_i failed; cases ran; exact .removes here block (.inr ⟨c,opened,.inl failed⟩)
      · rename_i eof; cases ran; exact .removes here block (.inr ⟨c,opened,.inr eof⟩)
      · cases ran

theorem writeTurn_sound (looping : s.pc = .broadcast addr text i rest) :
    Stepped listenfd s .write (writeTurn s addr text i rest) := by
  unfold writeTurn
  split
  · rename_i inside
    split
    · rename_i member
      split
      · rename_i gone; exact .skips looping inside (.inr gone)
      · rename_i c opened
        split
        · rename_i broken; exact .breaks looping inside member opened broken
        · rename_i whole; exact .writes looping inside member opened (by simpa using whole)
    · rename_i silent; exact .skips looping inside (.inl silent)
  · rename_i outside; exact .finishes looping outside

theorem step_sound (ran : step listenfd s action = some next) : Stepped listenfd s action next := by
  cases action with
  | connect =>
    simp only [step,Option.ite_none_right_eq_some,Option.some.injEq] at ran
    obtain ⟨live,rfl⟩ := ran
    exact .connect live
  | pendingPeer k event =>
    simp only [step,Option.ite_none_right_eq_some,Option.bind_eq_some_iff,Option.map_eq_some_iff] at ran
    obtain ⟨live,c,pending,moved,peer,rfl⟩ := ran
    exact .pendingPeer live pending peer
  | peer fd event =>
    simp only [step,Option.ite_none_right_eq_some,Option.bind_eq_some_iff,Option.map_eq_some_iff] at ran
    obtain ⟨live,c,opened,moved,peer,rfl⟩ := ran
    exact .peer live opened peer
  | epollWait reported =>
    simp only [step,Option.ite_none_right_eq_some,Option.map_eq_some_iff] at ran
    obtain ⟨⟨waiting,_,_,single⟩,events,batch,rfl⟩ := ran
    exact .epollWait waiting single batch
  | handle accepted =>
    simp only [step] at ran
    split at ran
    · rename_i rest here; exact acceptClient_sound here ran
    · rename_i addr rest here; exact serveClient_sound here ran
    · cases ran
  | write =>
    simp only [step] at ran
    split at ran
    · rename_i addr text i rest looping; cases ran; exact writeTurn_sound looping
    · cases ran

-- The blocks that main still has in hand: the one whose message it sends, and
-- those of the events not handled yet.
def pointers : List Data → List Nat
  | [] => []
  | .listen :: rest => pointers rest
  | .ptr addr :: rest => addr :: pointers rest

def Pc.blocks : Pc → List Nat
  | .batch events => pointers events
  | .broadcast addr _ _ rest => addr :: pointers rest
  | _ => []

-- Every block main will still use is live and comes up once; a registered
-- descriptor has a block of its own, named after it.
structure Tracked (s : State) : Prop where
  held : ∀ addr ∈ s.pc.blocks, ∃ user, s.heap addr = some user
  once : s.pc.blocks.Nodup
  owned : ∀ fd addr, s.interest fd = some addr → ∃ user, s.heap addr = some user ∧ user.fd = fd
  named : ∀ addr user, s.heap addr = some user → user.name = userName user.fd ∧ user.fd < maxClients

theorem initial_tracked : Tracked initial :=
  ⟨by simp [initial,Pc.blocks,pointers],by simp [initial,Pc.blocks,pointers],by simp [initial],by simp [initial]⟩

theorem mem_pointers : addr ∈ pointers events ↔ Data.ptr addr ∈ events := by
  induction events with
  | nil => simp [pointers]
  | cons event rest ih => cases event <;> simp [pointers,ih]

theorem eventOf_ptr (event : eventOf s reported = some (.ptr addr)) :
    ∃ fd, reported = some fd ∧ s.interest fd = some addr := by
  unfold eventOf at event
  split at event
  · split at event <;> cases event
  · rename_i fd
    split at event
    · rename_i at_ c registered opened
      split at event
      · cases event
      · cases event; exact ⟨fd,rfl,registered⟩
    · cases event

theorem reported_registered {reported : List (Option Nat)} (events : reported.mapM (eventOf s) = some batch)
    (held : Data.ptr addr ∈ batch) : ∃ fd, some fd ∈ reported ∧ s.interest fd = some addr := by
  induction reported generalizing batch with
  | nil => cases events; cases held
  | cons first rest ih =>
    simp only [List.mapM_cons,Option.bind_eq_bind,Option.bind_eq_some_iff] at events
    obtain ⟨event,here,later,tail,result⟩ := events
    cases result
    rcases List.mem_cons.mp held with rfl | old
    · obtain ⟨fd,rfl,registered⟩ := eventOf_ptr here
      exact ⟨fd,by simp,registered⟩
    · obtain ⟨fd,member,registered⟩ := ih tail old
      exact ⟨fd,List.mem_cons_of_mem _ member,registered⟩

-- Two descriptors never share a block, so a batch names each block once.
theorem reported_once {reported : List (Option Nat)} (valid : Tracked s) (single : reported.Nodup)
    (events : reported.mapM (eventOf s) = some batch) : (pointers batch).Nodup := by
  induction reported generalizing batch with
  | nil => cases events; simp [pointers]
  | cons first rest ih =>
    simp only [List.mapM_cons,Option.bind_eq_bind,Option.bind_eq_some_iff] at events
    obtain ⟨event,here,later,tail,result⟩ := events
    cases result
    obtain ⟨new,single⟩ := List.nodup_cons.mp single
    have tailOnce := ih single tail
    cases event with
    | listen => exact tailOnce
    | ptr addr =>
      refine List.nodup_cons.mpr ⟨?_,tailOnce⟩
      intro again
      obtain ⟨fd,rfl,registered⟩ := eventOf_ptr here
      obtain ⟨known,member,same⟩ := reported_registered tail (mem_pointers.mp again)
      obtain ⟨user,block,mine⟩ := valid.owned fd addr registered
      obtain ⟨other,found,theirs⟩ := valid.owned known addr same
      cases block.symm.trans found
      rw [← mine,theirs] at new
      exact new member

theorem tracked_poll {reported : List (Option Nat)} (valid : Tracked s) (single : reported.Nodup)
    (events : reported.mapM (eventOf s) = some batch) : Tracked {s with pc := .batch batch} := by
  refine ⟨?_,reported_once valid single events,valid.owned,valid.named⟩
  intro addr held
  obtain ⟨fd,_,registered⟩ := reported_registered events (mem_pointers.mp held)
  obtain ⟨user,block,_⟩ := valid.owned fd addr registered
  exact ⟨user,block⟩

theorem tracked_accept (valid : Tracked s) (here : s.pc = .batch (.listen :: rest)) (unused : s.heap addr = none)
    (small : fd < maxClients) :
    Tracked {s with
      pc := .batch rest,backlog := later,conns := conns,interest := Function.update s.interest fd (some addr),
      heap := Function.update s.heap addr (some ⟨fd,userName fd⟩),userFds := userFds} := by
  have used : ∀ {known user}, s.heap known = some user → known ≠ addr := by
    rintro known user block rfl
    rw [unused] at block; cases block
  have held := valid.held
  have once := valid.once
  rw [here] at held once
  refine ⟨?_,once,?_,?_⟩
  · intro known member
    obtain ⟨user,block⟩ := held known member
    exact ⟨user,by simpa [Function.update_of_ne (used block)] using block⟩
  · intro known at_ registered
    rcases update_found registered with ⟨rfl,rfl⟩ | ⟨_,registered⟩
    · exact ⟨_,Function.update_self ..,rfl⟩
    · obtain ⟨user,block,mine⟩ := valid.owned known at_ registered
      exact ⟨user,by simpa [Function.update_of_ne (used block)] using block,mine⟩
  · intro known user block
    rcases update_found block with ⟨_,rfl⟩ | ⟨_,block⟩
    · exact ⟨rfl,small⟩
    · exact valid.named known user block

theorem tracked_remove (valid : Tracked s) (here : s.pc = .batch (.ptr addr :: rest)) (block : s.heap addr = some user) :
    Tracked (removeClient s addr user.fd rest) := by
  have held := valid.held
  have once := valid.once
  rw [here] at held once
  obtain ⟨fresh,once⟩ := List.nodup_cons.mp once
  refine ⟨?_,once,?_,?_⟩
  · intro known member
    have different : known ≠ addr := by rintro rfl; exact fresh member
    simpa [removeClient,Function.update_of_ne different] using held known (List.mem_cons_of_mem _ member)
  · intro known at_ registered
    obtain ⟨apart,registered⟩ := clear_found registered
    obtain ⟨other,found,mine⟩ := valid.owned known at_ registered
    have different : at_ ≠ addr := by
      rintro rfl
      cases block.symm.trans found
      exact apart mine.symm
    exact ⟨other,(Function.update_of_ne different _ _).trans found,mine⟩
  · intro known other found
    exact valid.named known other (clear_found found).2

theorem tracked_preserved (valid : Tracked s) (stepped : Stepped listenfd s action next) : Tracked next := by
  have ended : Tracked {s with pc := .wild} := ⟨by simp [Pc.blocks],by simp [Pc.blocks],valid.owned,valid.named⟩
  cases stepped with
  | connect live => exact ⟨valid.held,valid.once,valid.owned,valid.named⟩
  | pendingPeer live pending moved => exact ⟨valid.held,valid.once,valid.owned,valid.named⟩
  | peer live opened moved => exact ⟨valid.held,valid.once,valid.owned,valid.named⟩
  | epollWait waiting single events => exact tracked_poll valid single events
  | acceptFails here => exact ended
  | overindexes here large => exact ended
  | accepts here first other free unused small => exact tracked_accept valid here unused small
  | usesFreed here freed => exact ended
  | overreads here block opened data unprinted => exact ⟨ended.held,ended.once,valid.owned,valid.named⟩
  | reads here block opened data printed =>
    have held := valid.held
    have once := valid.once
    rw [here] at held once
    exact ⟨held,once,valid.owned,valid.named⟩
  | removes here block ended => exact tracked_remove valid here block
  | skips looping inside silent =>
    have held := valid.held
    have once := valid.once
    rw [looping] at held once
    exact ⟨held,once,valid.owned,valid.named⟩
  | breaks looping inside member opened broken =>
    exact ⟨by simp [Pc.blocks],by simp [Pc.blocks],valid.owned,valid.named⟩
  | writes looping inside member opened whole =>
    have held := valid.held
    have once := valid.once
    rw [looping] at held once
    exact ⟨held,once,valid.owned,valid.named⟩
  | finishes looping outside =>
    have held := valid.held
    have once := valid.once
    rw [looping] at held once
    exact ⟨fun addr member => held addr (List.mem_cons_of_mem _ member),(List.nodup_cons.mp once).2,
      valid.owned,valid.named⟩

theorem writeTurn_inside (inside : i < maxClients)
    (whole : ∀ fd c, s.userFds fd = 1 → s.conns fd = some c → c.failed = false) :
    writeTurn s addr text i rest = {s with
      pc := .broadcast addr text (i+1) rest,
      writes := s.writes ++ (addressees (fun fd => s.userFds fd = 1) s.conns i 1).map fun fd => (fd,text)} := by
  unfold writeTurn
  by_cases member : s.userFds i = 1
  · cases opened : s.conns i with
    | none => simp [inside,member,opened,addressees]
    | some c => simp [inside,member,opened,addressees,whole i c member opened]
  · simp [inside,member,addressees]

theorem write_step (looping : s.pc = .broadcast addr text i rest) :
    step listenfd s .write = some (writeTurn s addr text i rest) := by
  simp only [step,looping]

theorem sendMsg_run (whole : ∀ fd c, s.userFds fd = 1 → s.conns fd = some c → c.failed = false)
    (looping : s.pc = .broadcast addr text i rest) (ends : i + n = maxClients) :
    run (step listenfd) s (List.replicate (n+1) .write) = some {s with
      pc := .batch rest,writes := s.writes ++ (addressees (fun fd => s.userFds fd = 1) s.conns i n).map fun fd => (fd,text)} := by
  induction n generalizing s i with
  | zero =>
    have outside : ¬ i < maxClients := by omega
    rw [List.replicate_one,run_cons,write_step looping,writeTurn,if_neg outside]
    simp [addressees]
  | succ n ih =>
    have onward := @ih (i+1) (writeTurn s addr text i rest)
    rw [writeTurn_inside (by omega) whole] at onward
    rw [List.replicate_succ,run_cons,write_step looping,writeTurn_inside (by omega) whole,addressees_succ _ _ _ n,List.map_append,
      ← List.append_assoc]
    exact onward whole rfl (by omega)

theorem lineText_isSome (small : fd < maxClients) (fits : chunk.length ≤ MAXLINE) :
    (lineText (userName fd) chunk).isSome ↔ chunk.length < MAXLINE ∨ 0 ∈ chunk := by
  rw [← received_isSome]
  cases found : received chunk with
  | none => simp [lineText,found]
  | some msg =>
    have message := received_length fits found
    have number : (decimal fd).length ≤ 5 := decimal_length (by decide) (by unfold maxClients at small; simp; omega)
    have literals : (ascii "user(").length = 5 ∧ (ascii ")").length = 1 := by decide
    have room : (userName fd ++ 32 :: msg).length < MAXLINE + 24 := by
      simp only [userName,List.length_append,List.length_cons,literals]
      unfold MAXLINE at *; omega
    simp [lineText,found,sprintf_fits room]

end NetworkEx.EpollChat
