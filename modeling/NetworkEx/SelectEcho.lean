import Mathlib.Data.Finset.Card
import NetworkEx.ChatSockets
import NetworkEx.TransitionRuns

namespace NetworkEx.SelectEcho
open ByteStreams CText ChatSockets TransitionRuns

def FD_SETSIZE : Nat := 1024

-- Where main stands: before select, before the accept of a pass, or in the loop
-- over the descriptors.
inductive Pc where
  | select
  | accept
  | scan (i : Nat)
  | killed
  | wild
  deriving DecidableEq

-- Connections are numbered as they are established; `backlog` holds those not
-- yet accepted and `files` those behind a descriptor. `writes` has for each
-- connection what the kernel took.
structure State where
  pc : Pc
  established : Nat
  conns : Nat → Option Conn
  backlog : List Nat
  files : Nat → Option Nat
  readfds : Finset Nat
  allfds : Finset Nat
  maxfd : Nat
  fdNum : Int
  writes : List (Nat × Bytes)

def initial (listenFd : Nat) : State := ⟨.select,0,fun _ => none,[],fun _ => none,{listenFd},∅,listenFd,0,[]⟩

def Pc.live : Pc → Bool
  | .killed | .wild => false
  | _ => true

-- A turn of the scan has what strlen finds behind a buffer without a NUL, and
-- the answer of its write, none for -1.
inductive Action where
  | connect
  | peer (k : Nat) (event : PeerEvent)
  | select (ready : Finset Nat)
  | accept (fd : Nat)
  | turn (beyond : Bytes) (writen : Option Nat)

def behind (s : State) (i : Nat) : Option (Nat × Conn) := do
  let k ← s.files i
  let c ← s.conns k
  return (k,c)

theorem behind_iff : behind s i = some (k,c) ↔ s.files i = some k ∧ s.conns k = some c := led_iff

-- strncmp(buf,"quit\n",5) == 0 on the cleared buffer after a read.
def quits (chunk : Bytes) : Bool := decide ((overlay chunk (List.replicate MAXLINE 0)).take 5 = ascii "quit\n")

def echoed (k : Nat) (chunk beyond : Bytes) : Option Nat → List (Nat × Bytes)
  | none => []
  | some writen => [(k,((received chunk).getD (chunk ++ beyond)).take writen)]

-- close and FD_CLR.
def leave (s : State) (i : Nat) : State :=
  {s with files := Function.update s.files i none,readfds := s.readfds.erase i}

-- `if(--fd_num <- 0) break;` reads as --fd_num < -0.
def countdown (s : State) (i : Nat) : State :=
  let fdNum := s.fdNum - 1
  if fdNum < -0 then {s with pc := .select,fdNum := fdNum} else {s with pc := .scan (i+1),fdNum := fdNum}

-- One turn of the loop. The sockets block, so a read with nothing to give
-- waits; a write to a reset connection raises SIGPIPE, which nothing handles.
def turn (s : State) (i : Nat) (beyond : Bytes) (writen : Option Nat) : Option State :=
  if i ≤ s.maxfd then
    if i ∈ s.allfds then
      match behind s i with
      | none => some (countdown (leave s i) i)
      | some (k,c) =>
        match c.read with
        | .again => none
        | .error | .eof => some (countdown (leave s i) i)
        | .data chunk =>
          let conns := Function.update s.conns k (some c.afterRead)
          if quits chunk then some {leave {s with conns := conns} i with pc := .select}
          else if c.failed then some {s with pc := .killed,conns := conns}
          else some (countdown {s with conns := conns,writes := s.writes ++ echoed k chunk beyond writen} i)
    else some {s with pc := .scan (i+1)}
  else some {s with pc := .select}

def step (listenFd : Nat) (s : State) : Action → Option State
  | .connect =>
    if s.pc.live then
      some {s with
        established := s.established + 1,conns := Function.update s.conns s.established (some Conn.fresh),
        backlog := s.backlog ++ [s.established]}
    else none
  | .peer k event =>
    if s.pc.live then
      (s.conns k).bind fun c => (c.peer event).map fun next =>
        {s with conns := Function.update s.conns k (some next)}
    else none
  | .select ready =>
    if s.pc = .select ∧ ready ⊆ s.readfds then
      some {s with pc := if listenFd ∈ ready then .accept else .scan 0,allfds := ready,fdNum := ready.card}
    else none
  | .accept fd =>
    if s.pc = .accept ∧ fd ≠ listenFd ∧ (s.files fd).isNone then
      match s.backlog with
      | [] => none
      | k :: later =>
        if fd < FD_SETSIZE then
          some {s with
            pc := .select,backlog := later,files := Function.update s.files fd (some k),
            readfds := insert fd s.readfds,maxfd := max s.maxfd fd}
        else some {s with pc := .wild}
    else none
  | .turn beyond writen =>
    match s.pc with
    | .scan i => turn s i beyond writen
    | _ => none

inductive Stepped (listenFd : Nat) : State → Action → State → Prop where
  | connect (live : s.pc.live = true) :
      Stepped listenFd s .connect {s with
        established := s.established + 1,conns := Function.update s.conns s.established (some Conn.fresh),
        backlog := s.backlog ++ [s.established]}
  | peer (live : s.pc.live = true) (found : s.conns k = some c) (moved : c.peer event = some next) :
      Stepped listenFd s (.peer k event) {s with conns := Function.update s.conns k (some next)}
  | pending (waiting : s.pc = .select) (watched : ready ⊆ s.readfds) (listener : listenFd ∈ ready) :
      Stepped listenFd s (.select ready) {s with pc := .accept,allfds := ready,fdNum := ready.card}
  | ready (waiting : s.pc = .select) (watched : ready ⊆ s.readfds) (clients : listenFd ∉ ready) :
      Stepped listenFd s (.select ready) {s with pc := .scan 0,allfds := ready,fdNum := ready.card}
  | accepts (waiting : s.pc = .accept) (first : s.backlog = k :: later) (other : fd ≠ listenFd)
      (free : s.files fd = none) (small : fd < FD_SETSIZE) :
      Stepped listenFd s (.accept fd) {s with
        pc := .select,backlog := later,files := Function.update s.files fd (some k),
        readfds := insert fd s.readfds,maxfd := max s.maxfd fd}
  | overindexes (waiting : s.pc = .accept) (first : s.backlog = k :: later) (other : fd ≠ listenFd)
      (free : s.files fd = none) (large : ¬ fd < FD_SETSIZE) :
      Stepped listenFd s (.accept fd) {s with pc := .wild}
  | skips (scanning : s.pc = .scan i) (inside : i ≤ s.maxfd) (silent : i ∉ s.allfds) :
      Stepped listenFd s (.turn beyond writen) {s with pc := .scan (i+1)}
  | leaves (scanning : s.pc = .scan i) (inside : i ≤ s.maxfd) (ready : i ∈ s.allfds)
      (ended : behind s i = none ∨ ∃ k c, behind s i = some (k,c) ∧ (c.read = .error ∨ c.read = .eof)) :
      Stepped listenFd s (.turn beyond writen) (countdown (leave s i) i)
  | quits (scanning : s.pc = .scan i) (inside : i ≤ s.maxfd) (ready : i ∈ s.allfds)
      (opened : behind s i = some (k,c)) (data : c.read = .data chunk) (quit : quits chunk = true) :
      Stepped listenFd s (.turn beyond writen)
        {leave {s with conns := Function.update s.conns k (some c.afterRead)} i with pc := .select}
  | breaks (scanning : s.pc = .scan i) (inside : i ≤ s.maxfd) (ready : i ∈ s.allfds)
      (opened : behind s i = some (k,c)) (data : c.read = .data chunk) (stays : quits chunk = false)
      (broken : c.failed = true) :
      Stepped listenFd s (.turn beyond writen)
        {s with pc := .killed,conns := Function.update s.conns k (some c.afterRead)}
  | echoes (scanning : s.pc = .scan i) (inside : i ≤ s.maxfd) (ready : i ∈ s.allfds)
      (opened : behind s i = some (k,c)) (data : c.read = .data chunk) (stays : quits chunk = false)
      (whole : c.failed = false) :
      Stepped listenFd s (.turn beyond writen) (countdown {s with
        conns := Function.update s.conns k (some c.afterRead),writes := s.writes ++ echoed k chunk beyond writen} i)
  | finishes (scanning : s.pc = .scan i) (outside : ¬ i ≤ s.maxfd) :
      Stepped listenFd s (.turn beyond writen) {s with pc := .select}

theorem turn_sound (scanning : s.pc = .scan i) (ran : turn s i beyond writen = some next) :
    Stepped listenFd s (.turn beyond writen) next := by
  unfold turn at ran
  split at ran
  · rename_i inside
    split at ran
    · rename_i ready
      split at ran
      · rename_i gone; cases ran; exact .leaves scanning inside ready (.inl gone)
      · rename_i k c opened
        split at ran
        · cases ran
        · rename_i failed; cases ran; exact .leaves scanning inside ready (.inr ⟨k,c,opened,.inl failed⟩)
        · rename_i eof; cases ran; exact .leaves scanning inside ready (.inr ⟨k,c,opened,.inr eof⟩)
        · rename_i chunk data
          dsimp only at ran
          split at ran
          · rename_i quit; cases ran; exact .quits scanning inside ready opened data quit
          · rename_i stays
            have stays := Bool.eq_false_iff.mpr stays
            split at ran
            · rename_i broken; cases ran; exact .breaks scanning inside ready opened data stays broken
            · rename_i whole; cases ran; exact .echoes scanning inside ready opened data stays (by simpa using whole)
    · rename_i silent; cases ran; exact .skips scanning inside silent
  · rename_i outside; cases ran; exact .finishes scanning outside

theorem step_sound (ran : step listenFd s action = some next) : Stepped listenFd s action next := by
  cases action with
  | connect =>
    simp only [step,Option.ite_none_right_eq_some,Option.some.injEq] at ran
    obtain ⟨live,rfl⟩ := ran
    exact .connect live
  | peer k event =>
    simp only [step,Option.ite_none_right_eq_some,Option.bind_eq_some_iff,Option.map_eq_some_iff] at ran
    obtain ⟨live,c,found,moved,peer,rfl⟩ := ran
    exact .peer live found peer
  | select ready =>
    simp only [step,Option.ite_none_right_eq_some,Option.some.injEq] at ran
    obtain ⟨⟨waiting,watched⟩,rfl⟩ := ran
    by_cases listener : listenFd ∈ ready
    · simpa only [if_pos listener] using Stepped.pending waiting watched listener
    · simpa only [if_neg listener] using Stepped.ready waiting watched listener
  | accept fd =>
    simp only [step,Option.ite_none_right_eq_some] at ran
    obtain ⟨⟨waiting,other,free⟩,ran⟩ := ran
    have free := Option.isNone_iff_eq_none.mp free
    split at ran
    · cases ran
    · rename_i k later first
      split at ran
      · rename_i small; cases ran; exact .accepts waiting first other free small
      · rename_i large; cases ran; exact .overindexes waiting first other free large
  | turn beyond writen =>
    simp only [step] at ran
    split at ran
    · rename_i i scanning; exact turn_sound scanning ran
    · cases ran

end NetworkEx.SelectEcho
