import Mathlib.Logic.Function.Basic
import NetworkEx.ChatSockets
import NetworkEx.TransitionRuns

namespace NetworkEx.RtsChat
open ByteStreams CText ChatSockets TransitionRuns

-- A client's socket. `nonblock` is F_SETFL done, `armed` all of setup_sigio.
-- `arrived` and `relayed` are history: all bytes the peer has delivered, and
-- those of them that send_chat_msg has carried to the end of its loop.
structure Client extends Conn where
  nonblock : Bool
  armed : Bool
  arrived : Bytes
  relayed : Bytes
  deriving DecidableEq

def Client.fresh : Client := ⟨Conn.fresh,false,false,[],[]⟩

def Client.peer (c : Client) (event : PeerEvent) : Option Client :=
  (c.toConn.peer event).map fun conn => {c with toConn := conn,arrived := c.arrived ++ event.bytes}

-- What the three fcntl calls of one setup_sigio answer; false is a negative
-- result, and nothing after it is called.
structure Fcntl where
  setfl : Bool
  setsig : Bool
  setown : Bool

def answered : Fcntl := ⟨true,true,true⟩

def setupSigio (answers : Fcntl) : Int :=
  if !answers.setfl then -1 else if !answers.setsig then -1 else if !answers.setown then -1 else 1

-- Where main stands. A wait for a signal and the accept or read after it are
-- one step: an arrival between them is one before them.
inductive Pc where
  | setup
  | wait
  | accepted (fd : Nat)
  | broadcast (fd : Nat) (msg text : Bytes) (i : Nat)
  | killed
  | wild
  deriving DecidableEq

-- `wild` is a memory access outside its array: nothing is known after it.
-- `backlog` holds the connections established and not yet accepted, and
-- `signals` the si_fd of every queued SIGRTMIN, oldest first. `calls` is what
-- write was called with and came back from, `writes` what of it the kernel took.
structure State where
  pc : Pc
  listenArmed : Bool
  backlog : List Client
  conns : Nat → Option Client
  userFds : Nat → Nat
  signals : List Nat
  calls : List (Nat × Bytes)
  writes : List (Nat × Bytes)

def initial : State := ⟨.setup,false,[],fun _ => none,fun _ => 0,[],[],[]⟩

def Pc.live : Pc → Bool
  | .killed | .wild => false
  | _ => true

-- What a write to an open socket comes to: the bytes it took, -1, or SIGPIPE.
inductive Answer where
  | took (n : Nat)
  | fails
  | sigpipe
  deriving DecidableEq

inductive Action where
  | connect
  | pendingPeer (k : Nat) (event : PeerEvent)
  | peer (fd : Nat) (event : PeerEvent)
  | setupListener (answers : Fcntl)
  | take (accepted : Option Nat)
  | setupClient (answers : Fcntl)
  | write (answer : Answer)

-- send_chat_msg's sprintf("user name (%d) %s",fd,msg), with the message itself.
def chatText (fd : Nat) (chunk : Bytes) : Option (Bytes × Bytes) := do
  let msg ← received chunk
  let text ← sprintf (MAXLINE + 24) (ascii "user name (" ++ decimal fd ++ ascii ") " ++ msg)
  return (msg,text)

-- make_connected_fd up to its accept, for the listener's signal.
def acceptOne (listenfd : Nat) (s : State) : Option Nat → Option State
  | none => some s
  | some fd =>
    match s.backlog with
    | [] => none
    | c :: later =>
      if fd ≠ listenfd ∧ fd < 2 ^ 31 ∧ (s.conns fd).isNone then
        some {s with pc := .accepted fd,backlog := later,conns := Function.update s.conns fd (some c)}
      else none

def drop (s : State) (fd : Nat) : State :=
  {s with conns := Function.update s.conns fd none,userFds := Function.update s.userFds fd 0}

-- The branch of main for a client's signal. On a closed number read and close
-- both fail with EBADF; a blocking socket with nothing to read does not return.
def serveClient (s : State) (fd : Nat) : Option State :=
  match s.conns fd with
  | none => some (drop s fd)
  | some c =>
    match c.read with
    | .data chunk =>
      let after := Function.update s.conns fd (some {c with toConn := c.afterRead})
      match chatText fd chunk with
      | none => some {s with pc := .wild,conns := after}
      | some (msg,text) => some {s with pc := .broadcast fd msg text 0,conns := after}
    | .error | .eof => some (drop s fd)
    | .again => if c.nonblock then some (drop s fd) else none

def finishConnected (s : State) (fd : Nat) (answers : Fcntl) : Option State :=
  match s.conns fd with
  | none => none
  | some c =>
    let ready := decide (setupSigio answers = 1)
    let after := Function.update s.conns fd (some {c with nonblock := answers.setfl,armed := ready})
    if ready then
      if fd < maxClients then
        some {s with pc := .wait,conns := after,userFds := Function.update s.userFds fd 1}
      else some {s with pc := .wild,conns := after}
    else some {s with pc := .wait,conns := after}

def credited (conns : Nat → Option Client) (fd : Nat) (msg : Bytes) : Nat → Option Client :=
  match conns fd with
  | none => conns
  | some c => Function.update conns fd (some {c with relayed := c.relayed ++ msg})

-- One turn of the loop in send_chat_msg, which looks at no answer. The sockets do
-- not block, so a write may take a part of the text, or nothing (EAGAIN); one to a
-- reset connection fails (ECONNRESET) or raises SIGPIPE, which nothing handles; one
-- to a closed number fails.
def writeTurn (s : State) (fd : Nat) (msg text : Bytes) (i : Nat) (answer : Answer) : Option State :=
  if i < maxClients then
    if s.userFds i = 1 then
      let called := {s with pc := .broadcast fd msg text (i+1),calls := s.calls ++ [(i,text)]}
      match s.conns i with
      | none => some called
      | some c =>
        match answer with
        | .took n => if c.failed = false ∧ n ≤ text.length then some {called with writes := s.writes ++ [(i,text.take n)]} else none
        | .fails => if c.failed = true ∨ c.nonblock = true then some called else none
        | .sigpipe => if c.failed = true then some {s with pc := .killed} else none
    else some {s with pc := .broadcast fd msg text (i+1)}
  else some {s with pc := .wait,conns := credited s.conns fd msg}

theorem credited_parts (found : credited conns fd msg k = some c) :
    ∃ d, conns k = some d ∧ c = {d with relayed := d.relayed ++ if k = fd then msg else []} := by
  cases opened : conns fd with
  | none =>
    simp only [credited,opened] at found
    have different : k ≠ fd := by rintro rfl; rw [opened] at found; cases found
    exact ⟨c,found,by simp [different]⟩
  | some d =>
    simp only [credited,opened] at found
    rcases update_found found with ⟨rfl,rfl⟩ | ⟨different,found⟩
    · exact ⟨d,opened,by simp⟩
    · exact ⟨c,found,by simp [different]⟩

def raised (armed : Bool) (fd : Nat) : List Nat := if armed then [fd] else []

-- The first three actions are the peers and the network, the others main.
-- make_listener takes the -1 of setup_sigio for success, as it is not zero.
def step (listenfd : Nat) (s : State) : Action → Option State
  | .connect =>
    if s.pc.live then
      some {s with backlog := s.backlog ++ [Client.fresh],signals := s.signals ++ raised s.listenArmed listenfd}
    else none
  | .pendingPeer k event =>
    if s.pc.live then
      (s.backlog[k]?).bind fun c => (c.peer event).map fun c => {s with backlog := s.backlog.set k c}
    else none
  | .peer fd event =>
    if s.pc.live then
      (s.conns fd).bind fun c => (c.peer event).map fun next =>
        {s with conns := Function.update s.conns fd (some next),signals := s.signals ++ raised c.armed fd}
    else none
  | .setupListener answers =>
    if s.pc = .setup then some {s with pc := .wait,listenArmed := decide (setupSigio answers = 1)} else none
  | .take accepted =>
    if s.pc = .wait then
      match s.signals with
      | [] => none
      | fd :: rest =>
        if fd = listenfd then acceptOne listenfd {s with signals := rest} accepted
        else serveClient {s with signals := rest} fd
    else none
  | .setupClient answers =>
    match s.pc with
    | .accepted fd => finishConnected s fd answers
    | _ => none
  | .write answer =>
    match s.pc with
    | .broadcast fd msg text i => writeTurn s fd msg text i answer
    | _ => none

inductive Stepped (listenfd : Nat) : State → Action → State → Prop where
  | connect (live : s.pc.live = true) :
      Stepped listenfd s .connect
        {s with backlog := s.backlog ++ [Client.fresh],signals := s.signals ++ raised s.listenArmed listenfd}
  | pendingPeer (live : s.pc.live = true) (pending : s.backlog[k]? = some c) (moved : c.peer event = some next) :
      Stepped listenfd s (.pendingPeer k event) {s with backlog := s.backlog.set k next}
  | peer (live : s.pc.live = true) (opened : s.conns fd = some c) (moved : c.peer event = some next) :
      Stepped listenfd s (.peer fd event)
        {s with conns := Function.update s.conns fd (some next),signals := s.signals ++ raised c.armed fd}
  | setupListener (starting : s.pc = .setup) :
      Stepped listenfd s (.setupListener answers)
        {s with pc := .wait,listenArmed := decide (setupSigio answers = 1)}
  | acceptFails (waiting : s.pc = .wait) (head : s.signals = listenfd :: rest) :
      Stepped listenfd s (.take none) {s with signals := rest}
  | accepts (waiting : s.pc = .wait) (head : s.signals = listenfd :: rest) (first : s.backlog = c :: later)
      (other : fd ≠ listenfd) (small : fd < 2 ^ 31) (free : s.conns fd = none) :
      Stepped listenfd s (.take (some fd))
        {s with signals := rest,pc := .accepted fd,backlog := later,conns := Function.update s.conns fd (some c)}
  | stale (waiting : s.pc = .wait) (head : s.signals = fd :: rest) (other : fd ≠ listenfd)
      (gone : s.conns fd = none) :
      Stepped listenfd s (.take accepted) (drop {s with signals := rest} fd)
  | overreads (waiting : s.pc = .wait) (head : s.signals = fd :: rest) (other : fd ≠ listenfd)
      (opened : s.conns fd = some c) (data : c.read = .data chunk) (unprinted : chatText fd chunk = none) :
      Stepped listenfd s (.take accepted) {s with
        signals := rest,pc := .wild,conns := Function.update s.conns fd (some {c with toConn := c.afterRead})}
  | reads (waiting : s.pc = .wait) (head : s.signals = fd :: rest) (other : fd ≠ listenfd)
      (opened : s.conns fd = some c) (data : c.read = .data chunk) (printed : chatText fd chunk = some (msg,text)) :
      Stepped listenfd s (.take accepted) {s with
        signals := rest,pc := .broadcast fd msg text 0,
        conns := Function.update s.conns fd (some {c with toConn := c.afterRead})}
  | drops (waiting : s.pc = .wait) (head : s.signals = fd :: rest) (other : fd ≠ listenfd)
      (opened : s.conns fd = some c)
      (ended : c.read = .error ∨ c.read = .eof ∨ (c.read = .again ∧ c.nonblock = true)) :
      Stepped listenfd s (.take accepted) (drop {s with signals := rest} fd)
  | registers (here : s.pc = .accepted fd) (opened : s.conns fd = some c) (ready : setupSigio answers = 1)
      (small : fd < maxClients) :
      Stepped listenfd s (.setupClient answers) {s with
        pc := .wait,conns := Function.update s.conns fd (some {c with nonblock := answers.setfl,armed := true}),
        userFds := Function.update s.userFds fd 1}
  | overindexes (here : s.pc = .accepted fd) (opened : s.conns fd = some c) (ready : setupSigio answers = 1)
      (large : ¬ fd < maxClients) :
      Stepped listenfd s (.setupClient answers) {s with
        pc := .wild,conns := Function.update s.conns fd (some {c with nonblock := answers.setfl,armed := true})}
  | setupFails (here : s.pc = .accepted fd) (opened : s.conns fd = some c) (unready : setupSigio answers ≠ 1) :
      Stepped listenfd s (.setupClient answers) {s with
        pc := .wait,conns := Function.update s.conns fd (some {c with nonblock := answers.setfl,armed := false})}
  | skips (looping : s.pc = .broadcast fd msg text i) (inside : i < maxClients) (silent : s.userFds i ≠ 1) :
      Stepped listenfd s (.write answer) {s with pc := .broadcast fd msg text (i+1)}
  | misses (looping : s.pc = .broadcast fd msg text i) (inside : i < maxClients) (member : s.userFds i = 1)
      (gone : s.conns i = none) :
      Stepped listenfd s (.write answer) {s with pc := .broadcast fd msg text (i+1),calls := s.calls ++ [(i,text)]}
  | refuses (looping : s.pc = .broadcast fd msg text i) (inside : i < maxClients) (member : s.userFds i = 1)
      (opened : s.conns i = some c) (why : c.failed = true ∨ c.nonblock = true) :
      Stepped listenfd s (.write .fails) {s with pc := .broadcast fd msg text (i+1),calls := s.calls ++ [(i,text)]}
  | breaks (looping : s.pc = .broadcast fd msg text i) (inside : i < maxClients) (member : s.userFds i = 1)
      (opened : s.conns i = some c) (broken : c.failed = true) :
      Stepped listenfd s (.write .sigpipe) {s with pc := .killed}
  | writes (looping : s.pc = .broadcast fd msg text i) (inside : i < maxClients) (member : s.userFds i = 1)
      (opened : s.conns i = some c) (whole : c.failed = false) (fits : n ≤ text.length) :
      Stepped listenfd s (.write (.took n)) {s with
        pc := .broadcast fd msg text (i+1),calls := s.calls ++ [(i,text)],writes := s.writes ++ [(i,text.take n)]}
  | finishes (looping : s.pc = .broadcast fd msg text i) (outside : ¬ i < maxClients) :
      Stepped listenfd s (.write answer) {s with pc := .wait,conns := credited s.conns fd msg}

theorem acceptOne_sound (waiting : s.pc = .wait) (head : s.signals = listenfd :: rest)
    (ran : acceptOne listenfd {s with signals := rest} accepted = some next) :
    Stepped listenfd s (.take accepted) next := by
  unfold acceptOne at ran
  split at ran
  · cases ran; exact .acceptFails waiting head
  · rename_i fd
    dsimp only at ran
    split at ran
    · cases ran
    · rename_i c later first
      split at ran
      · rename_i checked
        cases ran
        exact .accepts waiting head first checked.1 checked.2.1 (Option.isNone_iff_eq_none.mp checked.2.2)
      · cases ran

theorem serveClient_sound (waiting : s.pc = .wait) (head : s.signals = fd :: rest) (other : fd ≠ listenfd)
    (ran : serveClient {s with signals := rest} fd = some next) :
    Stepped listenfd s (.take accepted) next := by
  unfold serveClient at ran
  dsimp only at ran
  split at ran
  · rename_i gone; cases ran; exact .stale waiting head other gone
  · rename_i c opened
    split at ran
    · rename_i chunk data
      split at ran
      · rename_i unprinted; cases ran; exact .overreads waiting head other opened data unprinted
      · rename_i msg text printed; cases ran; exact .reads waiting head other opened data printed
    · rename_i ended; cases ran; exact .drops waiting head other opened (.inl ended)
    · rename_i ended; cases ran; exact .drops waiting head other opened (.inr (.inl ended))
    · rename_i ended
      split at ran
      · rename_i nonblock; cases ran; exact .drops waiting head other opened (.inr (.inr ⟨ended,nonblock⟩))
      · cases ran

theorem finishConnected_sound (here : s.pc = .accepted fd) (ran : finishConnected s fd answers = some next) :
    Stepped listenfd s (.setupClient answers) next := by
  unfold finishConnected at ran
  split at ran
  · cases ran
  · rename_i c opened
    by_cases ready : setupSigio answers = 1
    · simp only [ready,decide_true,if_true] at ran
      split at ran
      · rename_i small; cases ran; exact .registers here opened ready small
      · rename_i large; cases ran; exact .overindexes here opened ready large
    · simp only [ready,decide_false,Bool.false_eq_true,if_false] at ran
      cases ran; exact .setupFails here opened ready

theorem writeTurn_sound (looping : s.pc = .broadcast fd msg text i) (ran : writeTurn s fd msg text i answer = some next) :
    Stepped listenfd s (.write answer) next := by
  unfold writeTurn at ran
  split at ran
  · rename_i inside
    split at ran
    · rename_i member
      split at ran
      · rename_i gone; cases ran; exact .misses looping inside member gone
      · rename_i c opened
        split at ran
        · split at ran
          · rename_i taken; cases ran; exact .writes looping inside member opened taken.1 taken.2
          · cases ran
        · split at ran
          · rename_i why; cases ran; exact .refuses looping inside member opened why
          · cases ran
        · split at ran
          · rename_i broken; cases ran; exact .breaks looping inside member opened broken
          · cases ran
    · rename_i silent; cases ran; exact .skips looping inside silent
  · rename_i outside; cases ran; exact .finishes looping outside

theorem step_sound (ran : step listenfd s action = some next) : Stepped listenfd s action next := by
  cases action with
  | connect =>
    simp only [step,Option.ite_none_right_eq_some,Option.some.injEq] at ran
    obtain ⟨live,rfl⟩ := ran
    exact .connect live
  | pendingPeer k event =>
    simp only [step,Option.ite_none_right_eq_some,Option.bind_eq_some_iff,Option.map_eq_some_iff] at ran
    obtain ⟨live,c,pending,moved,peer,rfl⟩ := ran
    exact .pendingPeer live pending peer
  | peer fd event =>
    simp only [step,Option.ite_none_right_eq_some,Option.bind_eq_some_iff,Option.map_eq_some_iff] at ran
    obtain ⟨live,c,opened,moved,peer,rfl⟩ := ran
    exact .peer live opened peer
  | setupListener answers =>
    simp only [step,Option.ite_none_right_eq_some,Option.some.injEq] at ran
    obtain ⟨starting,rfl⟩ := ran
    exact .setupListener starting
  | take accepted =>
    simp only [step,Option.ite_none_right_eq_some] at ran
    obtain ⟨waiting,ran⟩ := ran
    split at ran
    · cases ran
    · rename_i fd rest head
      split at ran
      · rename_i same; subst same; exact acceptOne_sound waiting head ran
      · rename_i other; exact serveClient_sound waiting head other ran
  | setupClient answers =>
    simp only [step] at ran
    split at ran
    · rename_i fd here; exact finishConnected_sound here ran
    · cases ran
  | write answer =>
    simp only [step] at ran
    split at ran
    · rename_i fd msg text i looping; exact writeTurn_sound looping ran
    · cases ran

theorem step_complete (stepped : Stepped listenfd s action next) : step listenfd s action = some next := by
  cases stepped with
  | connect live => simp [step,live]
  | pendingPeer live pending moved => simp [step,live,pending,moved]
  | peer live opened moved => simp [step,live,opened,moved]
  | setupListener starting => simp [step,starting]
  | acceptFails waiting head => simp [step,waiting,head,acceptOne]
  | accepts waiting head first other small free =>
    simp only [Nat.reducePow] at small
    simp [step,waiting,head,acceptOne,first,other,small,free]
  | stale waiting head other gone => simp [step,waiting,head,other,serveClient,gone]
  | overreads waiting head other opened data unprinted =>
    simp [step,waiting,head,other,serveClient,opened,data,unprinted]
  | reads waiting head other opened data printed =>
    simp [step,waiting,head,other,serveClient,opened,data,printed]
  | drops waiting head other opened ended =>
    rcases ended with ended | ended | ⟨ended,nonblock⟩
    · simp [step,waiting,head,other,serveClient,opened,ended]
    · simp [step,waiting,head,other,serveClient,opened,ended]
    · simp [step,waiting,head,other,serveClient,opened,ended,nonblock]
  | registers here opened ready small => simp [step,here,finishConnected,opened,ready,small]
  | overindexes here opened ready large => simp [step,here,finishConnected,opened,ready,large]
  | setupFails here opened unready => simp [step,here,finishConnected,opened,unready]
  | skips looping inside silent => simp [step,looping,writeTurn,inside,silent]
  | misses looping inside member gone => simp [step,looping,writeTurn,inside,member,gone]
  | refuses looping inside member opened why => simp [step,looping,writeTurn,inside,member,opened,why]
  | breaks looping inside member opened broken => simp [step,looping,writeTurn,inside,member,opened,broken]
  | writes looping inside member opened whole fits => simp [step,looping,writeTurn,inside,member,opened,whole,fits]
  | finishes looping outside => simp [step,looping,writeTurn,outside]

theorem step_exact : step listenfd s action = some next ↔ Stepped listenfd s action next :=
  ⟨step_sound,step_complete⟩

-- user_fds lists only open descriptors that went through all of setup_sigio,
-- and never the one still on its way through it.
structure Members (s : State) : Prop where
  registered : ∀ fd, s.userFds fd = 1 → ∃ c, s.conns fd = some c ∧ c.armed = true
  unlisted : ∀ fd, s.pc = .accepted fd → s.userFds fd ≠ 1

theorem initial_members : Members initial := ⟨by simp [initial],by simp [initial]⟩

theorem members_update (valid : Members s) (opened : s.conns fd = some c) (same : next.armed = c.armed) :
    ∀ other, s.userFds other = 1 → ∃ d, Function.update s.conns fd (some next) other = some d ∧ d.armed = true := by
  intro other listed
  obtain ⟨d,found,armed⟩ := valid.registered other listed
  by_cases equal : other = fd
  · subst equal
    cases opened.symm.trans found
    exact ⟨next,by simp,same.trans armed⟩
  · exact ⟨d,by simpa [Function.update_of_ne equal] using found,armed⟩

theorem members_elsewhere (valid : Members s) (unlisted : s.userFds fd ≠ 1) (next : Option Client) :
    ∀ other, s.userFds other = 1 → ∃ d, Function.update s.conns fd next other = some d ∧ d.armed = true := by
  intro other listed
  have different : other ≠ fd := by rintro rfl; exact unlisted listed
  simpa [Function.update_of_ne different] using valid.registered other listed

theorem members_drop (valid : Members s) : Members (drop s fd) := by
  constructor
  · intro other listed
    by_cases equal : other = fd
    · subst equal; simp [drop] at listed
    · simp only [drop,Function.update_of_ne equal] at listed ⊢
      exact valid.registered other listed
  · intro other here
    by_cases equal : other = fd
    · subst equal; simp [drop]
    · simpa [drop,Function.update_of_ne equal] using valid.unlisted other here

theorem peer_client (moved : Client.peer c event = some next) :
    c.toConn.peer event = some next.toConn ∧ next.nonblock = c.nonblock ∧ next.armed = c.armed ∧
      next.arrived = c.arrived ++ event.bytes ∧ next.relayed = c.relayed := by
  obtain ⟨conn,peer,rfl⟩ := Option.map_eq_some_iff.mp moved
  exact ⟨peer,rfl,rfl,rfl,rfl⟩

theorem members_preserved (valid : Members s) (stepped : Stepped listenfd s action next) : Members next := by
  cases stepped with
  | connect live => exact ⟨valid.registered,valid.unlisted⟩
  | pendingPeer live pending moved => exact ⟨valid.registered,valid.unlisted⟩
  | peer live opened moved =>
    exact ⟨members_update valid opened (peer_client moved).2.2.1,valid.unlisted⟩
  | setupListener starting => exact ⟨valid.registered,by simp⟩
  | acceptFails waiting head => exact ⟨valid.registered,valid.unlisted⟩
  | accepts waiting head first other small free =>
    rename_i rest c later fd
    have unlisted : s.userFds fd ≠ 1 := by
      intro listed
      obtain ⟨d,found,_⟩ := valid.registered fd listed
      cases free.symm.trans found
    refine ⟨members_elsewhere valid unlisted _,?_⟩
    intro known here
    cases here; exact unlisted
  | stale waiting head other gone => exact members_drop ⟨valid.registered,valid.unlisted⟩
  | overreads waiting head other opened | reads waiting head other opened =>
    exact ⟨members_update valid opened rfl,by simp⟩
  | drops waiting head other opened ended => exact members_drop ⟨valid.registered,valid.unlisted⟩
  | registers here opened ready small =>
    rename_i c answers fd
    refine ⟨?_,by simp⟩
    intro known listed
    by_cases equal : known = fd
    · subst equal; exact ⟨_,Function.update_self ..,rfl⟩
    · simp only [Function.update_of_ne equal] at listed ⊢
      exact valid.registered known listed
  | overindexes here opened | setupFails here opened =>
    exact ⟨members_elsewhere valid (valid.unlisted _ here) _,by simp⟩
  | skips | misses | refuses | breaks | writes => exact ⟨valid.registered,by simp⟩
  | finishes looping outside =>
    refine ⟨?_,by simp⟩
    unfold credited
    split
    · exact valid.registered
    · rename_i c opened; exact members_update valid opened rfl

-- A connection main has not set up yet: unarmed, and nothing of it is read.
def Untouched (c : Client) : Prop := c.armed = false ∧ c.arrived = c.unread ∧ c.relayed = []

theorem untouched_peer (untouched : Untouched c) (moved : Client.peer c event = some next) : Untouched next := by
  obtain ⟨peer,_,armed,arrived,relayed⟩ := peer_client moved
  exact ⟨armed.trans untouched.1,by rw [arrived,peer_unread peer,untouched.2.1],relayed.trans untouched.2.2⟩

structure Pending (listenfd : Nat) (s : State) : Prop where
  backlog : ∀ c ∈ s.backlog, Untouched c
  accepted : ∀ fd, s.pc = .accepted fd → ∃ c, s.conns fd = some c ∧ Untouched c
  apart : ∀ fd, s.conns fd ≠ none → fd ≠ listenfd ∧ fd < 2 ^ 31

theorem initial_pending (listenfd : Nat) : Pending listenfd initial :=
  ⟨by simp [initial],by simp [initial],by simp [initial]⟩

theorem apart_update (valid : Pending listenfd s) (opened : s.conns fd = some c) (changed : Option Client) :
    ∀ other, Function.update s.conns fd changed other ≠ none → other ≠ listenfd ∧ other < 2 ^ 31 := by
  intro other present
  by_cases equal : other = fd
  · subst equal; exact valid.apart other (by simp [opened])
  · rw [Function.update_of_ne equal] at present; exact valid.apart other present

theorem pending_drop (valid : Pending listenfd s) (waiting : s.pc = .wait) : Pending listenfd (drop s fd) := by
  refine ⟨valid.backlog,by simp [drop,waiting],?_⟩
  intro other present
  by_cases equal : other = fd
  · subst equal; simp [drop] at present
  · simp only [drop,Function.update_of_ne equal] at present; exact valid.apart other present

theorem pending_preserved (valid : Pending listenfd s) (stepped : Stepped listenfd s action next) :
    Pending listenfd next := by
  cases stepped with
  | connect live =>
    refine ⟨?_,valid.accepted,valid.apart⟩
    exact List.forall_mem_append.mpr ⟨valid.backlog,List.forall_mem_singleton.mpr ⟨rfl,rfl,rfl⟩⟩
  | pendingPeer live pending moved =>
    refine ⟨?_,valid.accepted,valid.apart⟩
    intro c member
    rcases List.mem_or_eq_of_mem_set member with old | new
    · exact valid.backlog c old
    · rw [new]; exact untouched_peer (valid.backlog _ (List.mem_of_getElem? pending)) moved
  | peer live opened moved =>
    rename_i c after fd event
    refine ⟨valid.backlog,?_,apart_update valid opened _⟩
    intro known here
    obtain ⟨d,found,untouched⟩ := valid.accepted known here
    by_cases equal : known = fd
    · subst equal
      cases opened.symm.trans found
      exact ⟨after,by simp,untouched_peer untouched moved⟩
    · exact ⟨d,by simpa [Function.update_of_ne equal] using found,untouched⟩
  | setupListener starting => exact ⟨valid.backlog,by simp,valid.apart⟩
  | acceptFails waiting head => exact ⟨valid.backlog,valid.accepted,valid.apart⟩
  | accepts waiting head first other small free =>
    rename_i rest c later fd
    have member : ∀ d ∈ c :: later, Untouched d := by rw [← first]; exact valid.backlog
    refine ⟨fun d old => member d (List.mem_cons_of_mem _ old),?_,?_⟩
    · intro known here
      cases here; exact ⟨c,by simp,member c (by simp)⟩
    · intro known present
      by_cases equal : known = fd
      · subst equal; exact ⟨other,small⟩
      · simp only [Function.update_of_ne equal] at present; exact valid.apart known present
  | stale waiting head other gone => exact pending_drop ⟨valid.backlog,valid.accepted,valid.apart⟩ waiting
  | overreads waiting head other opened | reads waiting head other opened =>
    exact ⟨valid.backlog,by simp,apart_update valid opened _⟩
  | drops waiting head other opened ended => exact pending_drop ⟨valid.backlog,valid.accepted,valid.apart⟩ waiting
  | registers here opened | overindexes here opened | setupFails here opened =>
    exact ⟨valid.backlog,by simp,apart_update valid opened _⟩
  | skips | misses | refuses | breaks | writes => exact ⟨valid.backlog,by simp,valid.apart⟩
  | finishes looping outside =>
    refine ⟨valid.backlog,by simp,?_⟩
    unfold credited
    split
    · exact valid.apart
    · rename_i opened; exact apart_update valid opened _

-- Each write of the loop to an open socket is answered with all it was to write.
def Takes (s : State) (answers : Nat → Answer) (length : Nat) : Prop :=
  ∀ k c, k < maxClients → s.userFds k = 1 → s.conns k = some c → c.failed = false ∧ answers k = .took length

def turns (answers : Nat → Answer) (i n : Nat) : List Action := (List.range' i n).map fun k => .write (answers k)

theorem turns_succ (answers : Nat → Answer) (i n : Nat) :
    turns answers i (n+1) = .write (answers i) :: turns answers (i+1) n := by
  simp only [turns,List.range'_succ,List.map_cons]

def passed (s : State) (i n : Nat) (text : Bytes) : List (Nat × Bytes) :=
  ((List.range' i n).filter fun k => s.userFds k = 1).map fun k => (k,text)

theorem write_step (looping : s.pc = .broadcast fd msg text i) (answer : Answer) :
    step listenfd s (.write answer) = writeTurn s fd msg text i answer := by
  simp only [step,looping]

theorem writeTurn_inside (inside : i < maxClients) (takes : Takes s answers text.length) :
    writeTurn s fd msg text i (answers i) = some {s with
      pc := .broadcast fd msg text (i+1),
      calls := s.calls ++ passed s i 1 text
      writes := s.writes ++ (addressees (fun k => s.userFds k = 1) s.conns i 1).map fun k => (k,text)} := by
  unfold writeTurn
  by_cases member : s.userFds i = 1
  · cases opened : s.conns i with
    | none => simp [inside,member,opened,addressees,passed]
    | some c =>
      obtain ⟨well,took⟩ := takes i c inside member opened
      simp [inside,member,opened,addressees,passed,well,took]
  · simp [inside,member,addressees,passed]

-- Where the kernel takes each text whole, the loop ends with it written once to
-- each open client.
theorem sendChatMsg_run (takes : Takes s answers text.length) (looping : s.pc = .broadcast fd msg text i)
    (ends : i + n = maxClients) :
    run (step listenfd) s (turns answers i (n+1)) = some {s with
      pc := .wait,conns := credited s.conns fd msg,
      calls := s.calls ++ passed s i n text
      writes := s.writes ++ (addressees (fun k => s.userFds k = 1) s.conns i n).map fun k => (k,text)} := by
  induction n generalizing s i with
  | zero =>
    have outside : ¬ i < maxClients := by omega
    rw [turns_succ,run_cons,write_step looping,writeTurn,if_neg outside]
    simp [turns,addressees,passed]
  | succ n ih =>
    have inside : i < maxClients := by omega
    let next : State := {s with
      pc := .broadcast fd msg text (i+1),
      calls := s.calls ++ passed s i 1 text
      writes := s.writes ++ (addressees (fun k => s.userFds k = 1) s.conns i 1).map fun k => (k,text)}
    have kept : Takes next answers text.length := takes
    have onward := ih kept rfl (show i + 1 + n = maxClients by omega)
    have calls : passed s i (n+1) text = passed s i 1 text ++ passed s (i+1) n text := by
      simp only [passed]
      rw [← List.map_append,← List.filter_append,List.range'_append_1,Nat.add_comm]
    rw [turns_succ,run_cons,write_step looping,writeTurn_inside inside takes,calls,addressees_succ _ _ _ n,
      List.map_append,← List.append_assoc,← List.append_assoc]
    exact onward

-- The text array has room for any descriptor's number, so only the missing NUL
-- of a full read is a danger.
theorem chatText_isSome (small : fd < 2 ^ 31) (fits : chunk.length ≤ MAXLINE) :
    (chatText fd chunk).isSome ↔ chunk.length < MAXLINE ∨ 0 ∈ chunk := by
  rw [← received_isSome]
  cases found : received chunk with
  | none => simp [chatText,found]
  | some msg =>
    have message := received_length fits found
    have number : (decimal fd).length ≤ 11 := decimal_length (by decide) (by simp at small ⊢; omega)
    have literals : (ascii "user name (").length = 11 ∧ (ascii ") ").length = 2 := by decide
    have room : (ascii "user name (" ++ (decimal fd ++ (ascii ") " ++ msg))).length < MAXLINE + 24 := by
      simp only [List.length_append,literals]
      unfold MAXLINE at *; omega
    simp [chatText,found,sprintf_fits room]

end NetworkEx.RtsChat
