import NetworkEx.CText
import NetworkEx.TransitionRuns

namespace NetworkEx.ChatRelay
open ByteStreams CText TransitionRuns

def MAXLINE : Nat := 1024

-- The two descriptors main writes to, 1 and socketfd.
inductive Fd where
  | out
  | socket
  deriving DecidableEq

-- Where main stands; `stdin` tells whether FD_ISSET(0) still lies ahead.
inductive Pc where
  | select
  | readSocket (stdin : Bool)
  | writeOut (stdin : Bool)
  | readStdin
  | writeSocket
  | stopped
  deriving DecidableEq

structure Call where
  fd : Fd
  bytes : Bytes
  answer : Option Nat
  deriving DecidableEq

def Call.taken (call : Call) : Bytes := call.bytes.take (call.answer.getD 0)
def Call.Whole (call : Call) : Prop := call.answer = some call.bytes.length

-- `typed` and `received` are what the reads of 0 and of the socket brought,
-- `printed` is what printf was given.
structure State where
  pc : Pc
  buf : Bytes
  readn : Nat
  typed : Bytes
  received : Bytes
  printed : Bytes
  calls : List Call

-- `beyond` is what printf finds behind a buf without a NUL.
inductive Action where
  | select (socket stdin : Bool)
  | read (result : Option (Piece MAXLINE)) (beyond : Bytes)
  | write (answer : Option Nat)

def initial : State := ⟨.select,List.replicate MAXLINE 0,0,[],[],[],[]⟩

-- memset and read; a read of zero or less leaves the cleared buffer.
def fill (result : Option (Piece MAXLINE)) : Bytes := overlay (result.elim [] Subtype.val) (List.replicate MAXLINE 0)

def nextPc (stdin : Bool) : Pc := if stdin then .readStdin else .select

-- write(fd,buf,readn), and a return where the answer is not readn.
def write (s : State) (fd : Fd) (answer : Option Nat) (onward : Pc) : Option State :=
  if answer.getD 0 ≤ s.readn then
    some {s with
      pc := if answer = some s.readn then onward else .stopped
      calls := s.calls ++ [⟨fd,s.buf.take s.readn,answer⟩]}
  else none

def step (s : State) : Action → Option State
  | .select socket stdin =>
    match s.pc with
    | .select => some {s with pc := if socket then .readSocket stdin else nextPc stdin}
    | _ => none
  | .read result beyond =>
    let buf := fill result
    match s.pc with
    | .readSocket stdin =>
      match result with
      | none => some {s with pc := .stopped,buf}
      | some piece =>
        some {s with pc := .writeOut stdin,buf,readn := piece.val.length,received := s.received ++ piece.val}
    | .readStdin =>
      let printed := s.printed ++ (ascii "> " ++ (cstring buf).getD (buf ++ beyond))
      match result with
      | none => some {s with pc := .stopped,buf,printed}
      | some piece =>
        some {s with pc := .writeSocket,buf,readn := piece.val.length,typed := s.typed ++ piece.val,printed}
    | _ => none
  | .write answer =>
    match s.pc with
    | .writeOut stdin => write s .out answer (nextPc stdin)
    | .writeSocket => write s .socket answer .select
    | _ => none

def callsTo (fd : Fd) (calls : List Call) : List Call := calls.filter fun call => decide (call.fd = fd)

def passed (fd : Fd) (calls : List Call) : Bytes := (callsTo fd calls).flatMap Call.bytes
def taken (fd : Fd) (calls : List Call) : Bytes := (callsTo fd calls).flatMap Call.taken

-- What was read and is to be written next.
def inHand (fd : Fd) (s : State) : Bytes :=
  match s.pc,fd with
  | .writeOut _,.out => s.buf.take s.readn
  | .writeSocket,.socket => s.buf.take s.readn
  | _,_ => []

def Complete (s : State) : Prop :=
  (∀ call ∈ s.calls, call.Whole) ∨
    (s.pc = .stopped ∧ ∃ earlier call, s.calls = earlier ++ [call] ∧ ∀ before ∈ earlier, before.Whole)

structure Relayed (s : State) : Prop where
  room : s.buf.length = MAXLINE ∧ s.readn ≤ MAXLINE
  out : s.received = passed .out s.calls ++ inHand .out s
  socket : s.typed = passed .socket s.calls ++ inHand .socket s
  complete : Complete s

-- What is lost was at the end of the last write, and main has stopped.
structure LostLast (fd : Fd) (s : State) (lost : Bytes) : Prop where
  stopped : s.pc = .stopped
  last : ∃ earlier call, s.calls = earlier ++ [call] ∧ call.fd = fd ∧ lost <:+ call.bytes ∧ ∀ before ∈ earlier, before.Whole

theorem fill_room (result : Option (Piece MAXLINE)) : (fill result).length = MAXLINE := by
  rw [fill,overlay_length,List.length_replicate]
  cases result with
  | none => rfl
  | some piece => exact Nat.max_eq_right piece.property.2

theorem fill_take (piece : Piece MAXLINE) : (fill (some piece)).take piece.val.length = piece.val := by
  simp [fill,overlay]

theorem callsTo_last (calls : List Call) (call : Call) (fd : Fd) :
    callsTo fd (calls ++ [call]) = callsTo fd calls ++ if call.fd = fd then [call] else [] := by
  rw [callsTo,List.filter_append]
  by_cases same : call.fd = fd <;> simp [callsTo,same]

theorem passed_last (calls : List Call) (call : Call) (fd : Fd) :
    passed fd (calls ++ [call]) = passed fd calls ++ if call.fd = fd then call.bytes else [] := by
  rw [passed,callsTo_last,List.flatMap_append]
  by_cases same : call.fd = fd <;> simp [passed,same]

theorem taken_last (calls : List Call) (call : Call) (fd : Fd) :
    taken fd (calls ++ [call]) = taken fd calls ++ if call.fd = fd then call.taken else [] := by
  rw [taken,callsTo_last,List.flatMap_append]
  by_cases same : call.fd = fd <;> simp [taken,same]

theorem whole_taken (whole : ∀ call ∈ calls, Call.Whole call) (fd : Fd) : taken fd calls = passed fd calls := by
  have same : ∀ call ∈ callsTo fd calls, call.taken = call.bytes := by
    intro call member
    have answered := whole call (List.mem_of_mem_filter member)
    rw [Call.taken,answered,Option.getD_some,List.take_length]
  exact List.flatMap_congr same

theorem whole_append (whole : ∀ call ∈ calls, Call.Whole call) (last : Call.Whole call) :
    ∀ before ∈ calls ++ [call], Call.Whole before :=
  List.forall_mem_append.mpr ⟨whole,List.forall_mem_singleton.mpr last⟩

theorem complete_running (complete : Complete s) (running : s.pc ≠ .stopped) : ∀ call ∈ s.calls, call.Whole :=
  complete.resolve_right fun ended => running ended.1

theorem initial_relayed : Relayed initial :=
  ⟨⟨List.length_replicate,Nat.zero_le _⟩,rfl,rfl,.inl (by simp [initial])⟩

theorem write_parts (room : s.buf.length = MAXLINE ∧ s.readn ≤ MAXLINE) (complete : Complete s) (running : s.pc ≠ .stopped)
    (written : write s fd answer onward = some next) :
    (next.buf = s.buf ∧ next.readn = s.readn ∧ next.typed = s.typed ∧ next.received = s.received) ∧
      next.calls = s.calls ++ [⟨fd,s.buf.take s.readn,answer⟩] ∧ (next.pc = onward ∨ next.pc = .stopped) ∧ Complete next := by
  have whole := complete_running complete running
  unfold write at written
  split at written
  · cases written
    refine ⟨⟨rfl,rfl,rfl,rfl⟩,rfl,?_,?_⟩
    · by_cases all : answer = some s.readn
      · exact .inl (if_pos all)
      · exact .inr (if_neg all)
    · by_cases all : answer = some s.readn
      · left
        apply whole_append whole
        have length : (s.buf.take s.readn).length = s.readn := by rw [List.length_take]; omega
        rw [Call.Whole,length]
        exact all
      · exact .inr ⟨if_neg all,s.calls,_,rfl,whole⟩
  · cases written

def Quiet : Pc → Prop
  | .writeOut _ | .writeSocket => False
  | _ => True

theorem inHand_quiet (quiet : Quiet s.pc) (fd : Fd) : inHand fd s = [] := by
  unfold inHand
  cases here : s.pc with
  | writeOut stdin => rw [here] at quiet; cases quiet
  | writeSocket => rw [here] at quiet; cases quiet
  | select | readSocket | readStdin | stopped => rfl

theorem nextPc_quiet (stdin : Bool) : Quiet (nextPc stdin) := by cases stdin <;> exact trivial

theorem idle_relayed (relayed : Relayed s) (quiet : Quiet s.pc) (running : s.pc ≠ .stopped) :
    s.received = passed .out s.calls ∧ s.typed = passed .socket s.calls ∧ ∀ call ∈ s.calls, call.Whole := by
  have out := relayed.out
  have socket := relayed.socket
  rw [inHand_quiet quiet,List.append_nil] at out socket
  exact ⟨out,socket,complete_running relayed.complete running⟩

theorem write_relayed (relayed : Relayed s) (running : s.pc ≠ .stopped)
    (hand : ∀ other, inHand other s = if fd = other then s.buf.take s.readn else [])
    (onward : Quiet pc) (written : write s fd answer pc = some next) : Relayed next := by
  obtain ⟨⟨buf,readn,typed,received⟩,calls,ends,complete⟩ := write_parts relayed.room relayed.complete running written
  have quiet : Quiet next.pc := by
    rcases ends with onto | stopped
    · rw [onto]; exact onward
    · rw [stopped]; exact trivial
  have moved : ∀ other, passed other next.calls ++ inHand other next = passed other s.calls ++ inHand other s := by
    intro other
    rw [inHand_quiet quiet,List.append_nil,calls,passed_last,hand]
  refine ⟨?_,?_,?_,complete⟩
  · rw [buf,readn]
    exact relayed.room
  · rw [moved,received]
    exact relayed.out
  · rw [moved,typed]
    exact relayed.socket

theorem failed_relayed (relayed : Relayed s) (quiet : Quiet s.pc) (running : s.pc ≠ .stopped) (filled : buf.length = MAXLINE)
    (printed : Bytes) : Relayed {s with pc := .stopped,buf := buf,printed := printed} := by
  obtain ⟨received,typed,whole⟩ := idle_relayed relayed quiet running
  exact ⟨⟨filled,relayed.room.2⟩,received.trans (List.append_nil _).symm,typed.trans (List.append_nil _).symm,.inl whole⟩

theorem read_relayed (relayed : Relayed s) (stepped : step s (.read result beyond) = some next) : Relayed next := by
  have filled := fill_room result
  cases here : s.pc with
  | select | writeOut | writeSocket | stopped => simp only [step,here] at stepped; cases stepped
  | readSocket stdin =>
    have quiet : Quiet s.pc := by rw [here]; exact trivial
    have running : s.pc ≠ .stopped := by rw [here]; exact nofun
    simp only [step,here] at stepped
    cases result with
    | none =>
      cases stepped
      exact failed_relayed relayed quiet running filled _
    | some piece =>
      cases stepped
      obtain ⟨received,typed,whole⟩ := idle_relayed relayed quiet running
      refine ⟨⟨filled,piece.property.2⟩,?_,typed.trans (List.append_nil _).symm,.inl whole⟩
      simp only [inHand,fill_take,received]
  | readStdin =>
    have quiet : Quiet s.pc := by rw [here]; exact trivial
    have running : s.pc ≠ .stopped := by rw [here]; exact nofun
    simp only [step,here] at stepped
    cases result with
    | none =>
      cases stepped
      exact failed_relayed relayed quiet running filled _
    | some piece =>
      cases stepped
      obtain ⟨received,typed,whole⟩ := idle_relayed relayed quiet running
      refine ⟨⟨filled,piece.property.2⟩,received.trans (List.append_nil _).symm,?_,.inl whole⟩
      simp only [inHand,fill_take,typed]

theorem relayed_preserved (relayed : Relayed s) (stepped : step s action = some next) : Relayed next := by
  cases action with
  | read result beyond => exact read_relayed relayed stepped
  | select socket stdin =>
    cases here : s.pc with
    | readSocket | readStdin | writeOut | writeSocket | stopped => simp only [step,here] at stepped; cases stepped
    | select =>
      obtain ⟨received,typed,whole⟩ := idle_relayed relayed (by rw [here]; exact trivial) (by rw [here]; exact nofun)
      simp only [step,here] at stepped
      have quiet : Quiet next.pc := by
        cases stepped
        cases socket
        · exact nextPc_quiet stdin
        · exact trivial
      have none := inHand_quiet quiet
      cases stepped
      exact ⟨relayed.room,by rw [none,List.append_nil]; exact received,by rw [none,List.append_nil]; exact typed,.inl whole⟩
  | write answer =>
    cases here : s.pc with
    | select | readSocket | readStdin | stopped => simp only [step,here] at stepped; cases stepped
    | writeOut stdin =>
      simp only [step,here] at stepped
      apply write_relayed relayed (by rw [here]; exact nofun) _ (nextPc_quiet stdin) stepped
      intro other
      cases other <;> simp [inHand,here]
    | writeSocket =>
      simp only [step,here] at stepped
      have onward : Quiet .select := trivial
      apply write_relayed relayed (by rw [here]; exact nofun) _ onward stepped
      intro other
      cases other <;> simp [inHand,here]

theorem run_relayed (ran : run step initial actions = some s) : Relayed s := by
  have keeps : ∀ s action next, Relayed s → step s action = some next → Relayed next :=
    fun s action next relayed stepped => relayed_preserved relayed stepped
  exact run_invariant keeps initial_relayed ran

-- What was passed and not taken.
theorem complete_lost (complete : Complete s) (fd : Fd) :
    ∃ lost, passed fd s.calls = taken fd s.calls ++ lost ∧ (lost ≠ [] → LostLast fd s lost) := by
  rcases complete with whole | ⟨stopped,earlier,call,calls,whole⟩
  · exact ⟨[],by rw [whole_taken whole,List.append_nil],fun some => absurd rfl some⟩
  · rw [calls,passed_last,taken_last,whole_taken whole]
    by_cases same : call.fd = fd
    · refine ⟨call.bytes.drop (call.answer.getD 0),?_,fun _ => ⟨stopped,earlier,call,calls,same,List.drop_suffix _ _,whole⟩⟩
      rw [if_pos same,if_pos same,Call.taken,List.append_assoc,List.take_append_drop]
    · exact ⟨[],by simp only [if_neg same,List.append_nil],fun some => absurd rfl some⟩

-- At every point of every run: a byte read is passed on or in hand, and of
-- what is passed only the end of a last write gets lost.
theorem relay_faithful (ran : run step initial actions = some s) :
    (s.received = passed .out s.calls ++ inHand .out s ∧ s.typed = passed .socket s.calls ++ inHand .socket s) ∧
      ∀ fd, ∃ lost, passed fd s.calls = taken fd s.calls ++ lost ∧ (lost ≠ [] → LostLast fd s lost) := by
  have relayed := run_relayed ran
  exact ⟨⟨relayed.out,relayed.socket⟩,complete_lost relayed.complete⟩

def bothReady : List Action :=
  [.select true true,.read (some ⟨ascii "yo",by decide⟩) [],.write (some 2),.read (some ⟨ascii "hi",by decide⟩) [],.write (some 1)]

theorem relay_faithful_both : ∃ s, run step initial bothReady = some s ∧
    (s.received = passed .out s.calls ++ inHand .out s ∧ s.typed = passed .socket s.calls ++ inHand .socket s) ∧
      ∀ fd, ∃ lost, passed fd s.calls = taken fd s.calls ++ lost ∧ (lost ≠ [] → LostLast fd s lost) := by
  have ends : (run step initial bothReady).isSome := by decide +kernel
  obtain ⟨s,ran⟩ := Option.isSome_iff_exists.mp ends
  exact ⟨s,ran,relay_faithful ran⟩

end NetworkEx.ChatRelay
