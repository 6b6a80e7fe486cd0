import Mathlib.Logic.Function.Basic
import NetworkEx.CText

namespace NetworkEx.ChatSockets
open ByteStreams CText

def MAXLINE : Nat := 1024
def maxClients : Nat := 1024

-- An established connection as the server's kernel holds it: what has arrived
-- and was not read, whether the peer has closed it, whether it was reset.
structure Conn where
  unread : Bytes
  closed : Bool
  failed : Bool
  deriving DecidableEq

def Conn.fresh : Conn := ⟨[],false,false⟩

inductive PeerEvent where
  | data (bytes : Bytes)
  | fin
  | reset
  deriving DecidableEq

def PeerEvent.bytes : PeerEvent → Bytes
  | .data bytes => bytes
  | _ => []

-- A peer sends nothing after its FIN, and nothing at all after a reset.
def Conn.peer (c : Conn) : PeerEvent → Option Conn
  | .data bytes => if bytes = [] ∨ c.closed ∨ c.failed then none else some {c with unread := c.unread ++ bytes}
  | .fin => if c.closed ∨ c.failed then none else some {c with closed := true}
  | .reset => if c.failed then none else some {c with failed := true}

inductive ReadResult where
  | data (chunk : Bytes)
  | error
  | eof
  | again
  deriving DecidableEq

-- read(fd,buf,MAXLINE): queued bytes first, then a pending error, then the end
-- of the stream. `again` is EAGAIN, or a wait where the socket may block.
def Conn.read (c : Conn) : ReadResult :=
  if c.unread ≠ [] then .data (c.unread.take MAXLINE)
  else if c.failed then .error
  else if c.closed then .eof
  else .again

def Conn.afterRead (c : Conn) : Conn := {c with unread := c.unread.drop MAXLINE}

def Conn.idle (c : Conn) : Bool := decide (c.unread = []) && !c.closed && !c.failed

theorem read_again_iff (c : Conn) : c.read = .again ↔ c.idle = true := by
  unfold Conn.read Conn.idle
  by_cases empty : c.unread = [] <;> cases closed : c.closed <;> cases failed : c.failed <;> simp [empty]

theorem read_gone {c : Conn} (gone : c.read = .error ∨ c.read = .eof) : c.closed = true ∨ c.failed = true := by
  unfold Conn.read at gone
  by_cases empty : c.unread = [] <;> cases closed : c.closed <;> cases failed : c.failed <;>
    simp [empty,closed,failed] at gone ⊢

theorem read_data (data : Conn.read c = .data chunk) :
    c.unread ≠ [] ∧ chunk = c.unread.take MAXLINE ∧ c.unread = chunk ++ c.afterRead.unread := by
  unfold Conn.read at data
  by_cases empty : c.unread = []
  · cases closed : c.closed <;> cases failed : c.failed <;> simp [empty,closed,failed] at data
  · simp only [ne_eq,empty,not_false_eq_true,if_true,ReadResult.data.injEq] at data
    exact ⟨empty,data.symm,by rw [← data]; exact (List.take_append_drop _ _).symm⟩

theorem peer_data (moved : Conn.peer c (.data bytes) = some next) :
    bytes ≠ [] ∧ c.closed = false ∧ c.failed = false ∧ next = {c with unread := c.unread ++ bytes} := by
  simp only [Conn.peer,Option.ite_none_left_eq_some,Option.some.injEq,not_or,Bool.not_eq_true] at moved
  exact ⟨moved.1.1,moved.1.2.1,moved.1.2.2,moved.2.symm⟩

theorem peer_fin (moved : Conn.peer c .fin = some next) : c.failed = false ∧ next = {c with closed := true} := by
  simp only [Conn.peer,Option.ite_none_left_eq_some,Option.some.injEq,not_or,Bool.not_eq_true] at moved
  exact ⟨moved.1.2,moved.2.symm⟩

theorem peer_reset (moved : Conn.peer c .reset = some next) : c.failed = false ∧ next = {c with failed := true} := by
  simp only [Conn.peer,Option.ite_none_left_eq_some,Option.some.injEq,Bool.not_eq_true] at moved
  exact ⟨moved.1,moved.2.symm⟩

theorem peer_unread (moved : Conn.peer c event = some next) : next.unread = c.unread ++ event.bytes := by
  cases event with
  | data bytes => rw [(peer_data moved).2.2.2]; rfl
  | fin => rw [(peer_fin moved).2]; simp [PeerEvent.bytes]
  | reset => rw [(peer_reset moved).2]; simp [PeerEvent.bytes]

theorem peer_busy (moved : Conn.peer c event = some next) : next.idle = false := by
  cases event with
  | data bytes => rw [(peer_data moved).2.2.2]; simp [Conn.idle,(peer_data moved).1]
  | fin => rw [(peer_fin moved).2]; simp [Conn.idle]
  | reset => rw [(peer_reset moved).2]; simp [Conn.idle]

-- Both servers clear MAXLINE bytes before each read and print the buffer with
-- %s. A read that fills it without a NUL has no string in it.
def received (chunk : Bytes) : Option Bytes := cstring (overlay chunk (List.replicate MAXLINE 0))

theorem received_short (short : chunk.length < MAXLINE) (clean : 0 ∉ chunk) : received chunk = some chunk :=
  cstring_cleared short clean

theorem received_isSome (chunk : Bytes) : (received chunk).isSome ↔ chunk.length < MAXLINE ∨ 0 ∈ chunk :=
  cstring_cleared_isSome chunk MAXLINE

theorem received_untilNul (found : received chunk = some msg) : msg = untilNul chunk := by
  have ended : 0 ∈ overlay chunk (List.replicate MAXLINE 0) := by
    rw [← cstring_isSome,← received,found]
    rfl
  have zeros : overlay chunk (List.replicate MAXLINE 0) ++ [0] = chunk ++ 0 :: List.replicate (MAXLINE - chunk.length) 0 := by
    rw [overlay,List.drop_replicate,List.append_assoc,← List.replicate_succ',List.replicate_succ]
  have longer := cstring_append ended [0]
  rw [zeros,cstring_untilNul,← received,found] at longer
  exact (Option.some.inj longer).symm

theorem received_length (fits : chunk.length ≤ MAXLINE) (found : received chunk = some msg) : msg.length < MAXLINE := by
  obtain ⟨_,rest,whole⟩ := cstring_parts found
  have length := congrArg List.length whole
  rw [overlay_length,List.length_replicate,List.length_append,List.length_cons] at length
  omega

theorem read_length (data : Conn.read c = .data chunk) : chunk.length ≤ MAXLINE := by
  rw [(read_data data).2.1]
  exact List.length_take_le _ _

-- Whom a loop over user_fds writes to in its n turns from index i on.
def addressees (listed : Nat → Bool) (conns : Nat → Option α) (i n : Nat) : List Nat :=
  (List.range' i n).filter fun fd => listed fd && (conns fd).isSome

theorem addressees_succ (listed : Nat → Bool) (conns : Nat → Option α) (i n : Nat) :
    addressees listed conns i (n+1) = addressees listed conns i 1 ++ addressees listed conns (i+1) n := by
  have split : List.range' i (n+1) = List.range' i 1 ++ List.range' (i+1) n := by
    rw [List.range'_succ,List.range'_one]
    rfl
  rw [addressees,split,List.filter_append]
  rfl

theorem addressees_alone {conns : Nat → Option α} (only : ∀ fd, listed fd = true → fd = k) (member : listed k = true)
    (opened : conns k ≠ none) (within : k < n) : addressees listed conns 0 n = [k] := by
  have same : ∀ fd ∈ List.range' 0 n, (listed fd && (conns fd).isSome) = decide (fd = k) := by
    intro fd _
    by_cases equal : fd = k
    · rw [equal]
      simp [member,Option.isSome_iff_ne_none,opened]
    · have silent : listed fd = false := Bool.eq_false_iff.mpr fun here => equal (only fd here)
      simp [silent,equal]
  have once : (List.range' 0 n).count k = 1 := by
    rw [List.Nodup.count List.nodup_range']
    simp [within]
  rw [addressees,List.filter_congr same,List.filter_eq,once]
  rfl

theorem update_found {table : Nat → Option α} (found : Function.update table k (some new) i = some a) :
    (i = k ∧ a = new) ∨ (i ≠ k ∧ table i = some a) := by
  by_cases equal : i = k
  · rw [equal,Function.update_self] at found
    exact .inl ⟨equal,(Option.some.inj found).symm⟩
  · rw [Function.update_of_ne equal] at found
    exact .inr ⟨equal,found⟩

theorem clear_found {table : Nat → Option α} (found : Function.update table k none i = some a) :
    i ≠ k ∧ table i = some a := by
  by_cases equal : i = k
  · rw [equal,Function.update_self] at found
    cases found
  · rw [Function.update_of_ne equal] at found
    exact ⟨equal,found⟩

theorem isSome_update {table : Nat → Option α} {new : α} :
    (Function.update table k (some new) i).isSome ↔ i = k ∨ (table i).isSome := by
  by_cases equal : i = k <;> simp [equal]

theorem isSome_clear {table : Nat → Option α} : (Function.update table k none i).isSome ↔ i ≠ k ∧ (table i).isSome := by
  by_cases equal : i = k <;> simp [equal]

theorem led_iff {table : Nat → Option Nat} {conns : Nat → Option α} :
    ((do let k ← table i; let c ← conns k; return (k,c)) : Option (Nat × α)) = some (k,c) ↔ table i = some k ∧ conns k = some c := by
  simp only [Option.bind_eq_bind,Option.bind_eq_some_iff]
  constructor
  · intro read
    obtain ⟨k,held,c,found,result⟩ := read
    cases result
    exact ⟨held,found⟩
  · intro both
    exact ⟨k,both.1,c,both.2,rfl⟩

-- An open socket changed in place stays open, and no other opens.
theorem opened_update {conns : Nat → Option α} (opened : conns fd = some c) (next : α) (i : Nat) :
    Function.update conns fd (some next) i ≠ none ↔ conns i ≠ none := by
  by_cases equal : i = fd
  · subst equal; simp [opened]
  · rw [Function.update_of_ne equal]

end NetworkEx.ChatSockets
