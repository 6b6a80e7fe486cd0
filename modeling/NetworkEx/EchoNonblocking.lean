import Mathlib.Logic.Function.Basic
import NetworkEx.ChatSockets
import NetworkEx.TransitionRuns

namespace NetworkEx.EchoNonblocking
open ByteStreams ChatSockets TransitionRuns

-- Where main stands: before the accept of its outer loop, or in the loop over
-- the descriptors.
inductive Pc where
  | accept
  | scan (i : Nat)
  | killed
  | wild
  deriving DecidableEq

-- Connections are numbered as they are established; `backlog` holds those not
-- yet accepted and `files` those behind a descriptor. `scanned` is history: the
-- data read since the loop began, latest first, each with its connection.
-- `writes` has for each connection what the kernel took.
structure State where
  pc : Pc
  buf : Bytes
  established : Nat
  conns : Nat → Option Conn
  backlog : List Nat
  files : Nat → Option Nat
  clientFdArray : Nat → Int
  maxfd : Nat
  scanned : List (Nat × Bytes)
  writes : List (Nat × Bytes)

def zeroed : Bytes := List.replicate MAXLINE 0

def initial (serverSockfd : Nat) : State :=
  ⟨.accept,zeroed,0,fun _ => none,[],fun _ => none,fun _ => -1,serverSockfd,[],[]⟩

def Pc.live : Pc → Bool
  | .killed | .wild => false
  | _ => true

inductive Accepted where
  | again
  | error
  | fd (n : Nat)

-- A turn of the scan has the answer of its write, none for -1.
inductive Action where
  | connect
  | peer (k : Nat) (event : PeerEvent)
  | accept (answer : Accepted)
  | turn (writen : Option Nat)

def behind (s : State) (i : Nat) : Option (Nat × Conn) := do
  let k ← s.files i
  let c ← s.conns k
  return (k,c)

theorem behind_iff : behind s i = some (k,c) ↔ s.files i = some k ∧ s.conns k = some c := led_iff

-- The first half of the outer loop. Only EAGAIN goes on to the scan.
def acceptOne (serverSockfd : Nat) (s : State) : Accepted → Option State
  | .again => if s.backlog = [] then some {s with pc := .scan 0,buf := zeroed,scanned := []} else none
  | .error => some {s with buf := zeroed}
  | .fd fd =>
    match s.backlog with
    | [] => none
    | k :: later =>
      if fd ≠ serverSockfd ∧ (s.files fd).isNone then
        if fd < maxClients then
          some {s with
            buf := zeroed,backlog := later,files := Function.update s.files fd (some k),
            clientFdArray := Function.update s.clientFdArray fd 1,maxfd := max s.maxfd fd}
        else some {s with pc := .wild}
      else none

-- close, client_fd_array[i] = -1 and the break.
def leave (s : State) (i : Nat) : State :=
  {s with
    pc := .accept,files := Function.update s.files i none,clientFdArray := Function.update s.clientFdArray i (-1)}

def echoed (k : Nat) (buf : Bytes) : Option Nat → List (Nat × Bytes)
  | none => []
  | some writen => [(k,buf.take writen)]

-- One turn of the scan. The read goes over the front of buf, the write sends
-- all of buf; to a reset connection it raises SIGPIPE, which nothing handles.
def turn (s : State) (i : Nat) (writen : Option Nat) : State :=
  if i < s.maxfd + 1 then
    if s.clientFdArray i ≠ 1 then {s with pc := .scan (i+1)}
    else
      match behind s i with
      | none => leave s i
      | some (k,c) =>
        match c.read with
        | .again => {s with pc := .scan (i+1)}
        | .error | .eof => leave s i
        | .data chunk =>
          let buf := overlay chunk s.buf
          let conns := Function.update s.conns k (some c.afterRead)
          let scanned := (k,chunk) :: s.scanned
          if c.failed then {s with pc := .killed,buf := buf,conns := conns,scanned := scanned}
          else {s with
            pc := .scan (i+1),buf := buf,conns := conns,scanned := scanned,
            writes := s.writes ++ echoed k buf writen}
  else {s with pc := .accept}

def step (serverSockfd : Nat) (s : State) : Action → Option State
  | .connect =>
    if s.pc.live then
      some {s with
        established := s.established + 1,conns := Function.update s.conns s.established (some Conn.fresh),
        backlog := s.backlog ++ [s.established]}
    else none
  | .peer k event =>
    if s.pc.live then
      (s.conns k).bind fun c => (c.peer event).map fun next =>
        {s with conns := Function.update s.conns k (some next)}
    else none
  | .accept answer => if s.pc = .accept then acceptOne serverSockfd s answer else none
  | .turn writen =>
    match s.pc with
    | .scan i => some (turn s i writen)
    | _ => none

inductive Stepped (serverSockfd : Nat) : State → Action → State → Prop where
  | connect (live : s.pc.live = true) :
      Stepped serverSockfd s .connect {s with
        established := s.established + 1,conns := Function.update s.conns s.established (some Conn.fresh),
        backlog := s.backlog ++ [s.established]}
  | peer (live : s.pc.live = true) (found : s.conns k = some c) (moved : c.peer event = some next) :
      Stepped serverSockfd s (.peer k event) {s with conns := Function.update s.conns k (some next)}
  | nothingPending (waiting : s.pc = .accept) (empty : s.backlog = []) :
      Stepped serverSockfd s (.accept .again) {s with pc := .scan 0,buf := zeroed,scanned := []}
  | acceptFails (waiting : s.pc = .accept) : Stepped serverSockfd s (.accept .error) {s with buf := zeroed}
  | accepts (waiting : s.pc = .accept) (first : s.backlog = k :: later) (other : fd ≠ serverSockfd)
      (free : s.files fd = none) (small : fd < maxClients) :
      Stepped serverSockfd s (.accept (.fd fd)) {s with
        buf := zeroed,backlog := later,files := Function.update s.files fd (some k),
        clientFdArray := Function.update s.clientFdArray fd 1,maxfd := max s.maxfd fd}
  | overindexes (waiting : s.pc = .accept) (first : s.backlog = k :: later) (other : fd ≠ serverSockfd)
      (free : s.files fd = none) (large : ¬ fd < maxClients) :
      Stepped serverSockfd s (.accept (.fd fd)) {s with pc := .wild}
  | skips (scanning : s.pc = .scan i) (inside : i < s.maxfd + 1)
      (silent : s.clientFdArray i ≠ 1 ∨ ∃ k c, behind s i = some (k,c) ∧ c.read = .again) :
      Stepped serverSockfd s (.turn writen) {s with pc := .scan (i+1)}
  | leaves (scanning : s.pc = .scan i) (inside : i < s.maxfd + 1) (client : s.clientFdArray i = 1)
      (ended : behind s i = none ∨ ∃ k c, behind s i = some (k,c) ∧ (c.read = .error ∨ c.read = .eof)) :
      Stepped serverSockfd s (.turn writen) (leave s i)
  | breaks (scanning : s.pc = .scan i) (inside : i < s.maxfd + 1) (client : s.clientFdArray i = 1)
      (opened : behind s i = some (k,c)) (data : c.read = .data chunk) (broken : c.failed = true) :
      Stepped serverSockfd s (.turn writen) {s with
        pc := .killed,buf := overlay chunk s.buf,conns := Function.update s.conns k (some c.afterRead),
        scanned := (k,chunk) :: s.scanned}
  | echoes (scanning : s.pc = .scan i) (inside : i < s.maxfd + 1) (client : s.clientFdArray i = 1)
      (opened : behind s i = some (k,c)) (data : c.read = .data chunk) (whole : c.failed = false) :
      Stepped serverSockfd s (.turn writen) {s with
        pc := .scan (i+1),buf := overlay chunk s.buf,conns := Function.update s.conns k (some c.afterRead),
        scanned := (k,chunk) :: s.scanned,writes := s.writes ++ echoed k (overlay chunk s.buf) writen}
  | finishes (scanning : s.pc = .scan i) (outside : ¬ i < s.maxfd + 1) :
      Stepped serverSockfd s (.turn writen) {s with pc := .accept}

theorem acceptOne_sound (waiting : s.pc = .accept) (ran : acceptOne serverSockfd s answer = some next) :
    Stepped serverSockfd s (.accept answer) next := by
  cases answer with
  | again =>
    simp only [acceptOne,Option.ite_none_right_eq_some,Option.some.injEq] at ran
    obtain ⟨empty,rfl⟩ := ran
    exact .nothingPending waiting empty
  | error => cases ran; exact .acceptFails waiting
  | fd fd =>
    simp only [acceptOne] at ran
    split at ran
    · cases ran
    · rename_i k later first
      split at ran
      · rename_i checked
        have free := Option.isNone_iff_eq_none.mp checked.2
        split at ran
        · rename_i small; cases ran; exact .accepts waiting first checked.1 free small
        · rename_i large; cases ran; exact .overindexes waiting first checked.1 free large
      · cases ran

theorem turn_sound (scanning : s.pc = .scan i) : Stepped serverSockfd s (.turn writen) (turn s i writen) := by
  unfold turn
  split
  · rename_i inside
    split
    · rename_i silent; exact .skips scanning inside (.inl silent)
    · rename_i client
      have client := not_not.mp client
      split
      · rename_i gone; exact .leaves scanning inside client (.inl gone)
      · rename_i k c opened
        split
        · rename_i again; exact .skips scanning inside (.inr ⟨k,c,opened,again⟩)
        · rename_i failed; exact .leaves scanning inside client (.inr ⟨k,c,opened,.inl failed⟩)
        · rename_i eof; exact .leaves scanning inside client (.inr ⟨k,c,opened,.inr eof⟩)
        · rename_i chunk data
          dsimp only
          split
          · rename_i broken; exact .breaks scanning inside client opened data broken
          · rename_i whole; exact .echoes scanning inside client opened data (by simpa using whole)
  · rename_i outside; exact .finishes scanning outside

theorem step_sound (ran : step serverSockfd s action = some next) : Stepped serverSockfd s action next := by
  cases action with
  | connect =>
    simp only [step,Option.ite_none_right_eq_some,Option.some.injEq] at ran
    obtain ⟨live,rfl⟩ := ran
    exact .connect live
  | peer k event =>
    simp only [step,Option.ite_none_right_eq_some,Option.bind_eq_some_iff,Option.map_eq_some_iff] at ran
    obtain ⟨live,c,found,moved,peer,rfl⟩ := ran
    exact .peer live found peer
  | accept answer =>
    simp only [step,Option.ite_none_right_eq_some] at ran
    exact acceptOne_sound ran.1 ran.2
  | turn writen =>
    simp only [step] at ran
    split at ran
    · rename_i i scanning; cases ran; exact turn_sound scanning
    · cases ran

theorem step_complete (stepped : Stepped serverSockfd s action next) : step serverSockfd s action = some next := by
  cases stepped with
  | connect live => simp [step,live]
  | peer live found moved => simp [step,live,found,moved]
  | nothingPending waiting empty => simp [step,waiting,acceptOne,empty]
  | acceptFails waiting => simp [step,waiting,acceptOne]
  | accepts waiting first other free small => simp [step,waiting,acceptOne,first,other,free,small]
  | overindexes waiting first other free large => simp [step,waiting,acceptOne,first,other,free,large]
  | skips scanning inside silent =>
    rename_i i writen
    by_cases client : s.clientFdArray i = 1
    · obtain ⟨k,c,opened,again⟩ := silent.resolve_left (not_not.mpr client)
      simp [step,scanning,turn,inside,client,opened,again]
    · simp [step,scanning,turn,inside,client]
  | leaves scanning inside client ended =>
    rcases ended with gone | ⟨k,c,opened,failed | eof⟩
    · simp [step,scanning,turn,inside,client,gone]
    · simp [step,scanning,turn,inside,client,opened,failed]
    · simp [step,scanning,turn,inside,client,opened,eof]
  | breaks scanning inside client opened data broken =>
    simp [step,scanning,turn,inside,client,opened,data,broken]
  | echoes scanning inside client opened data whole =>
    simp [step,scanning,turn,inside,client,opened,data,whole]
  | finishes scanning outside => simp [step,scanning,turn,outside]

end NetworkEx.EchoNonblocking
