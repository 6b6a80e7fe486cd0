import NetworkEx.ChatLines
import NetworkEx.EpollFidelity
import NetworkEx.GroupBroadcast

namespace NetworkEx.EpollOrder
open ByteStreams CText ChatSockets TransitionRuns GroupBroadcast EpollChat EpollRepresentation
open ChatLines (readOf readOf_reads readOf_removes readOf_some stepped_live member_inside)
open EpollFidelity (line lineText_parts)

def member (s : State) (i : Nat) : Bool := decide (s.userFds i = 1)

-- What send_msg writes for a message, always the whole of its buffer.
def padded (fd : Nat) (bytes : Bytes) : Bytes := overlay (line fd bytes) (List.replicate (MAXLINE + 24) 0)

-- The text that a read hands to send_msg, for those in user_fds.
def published (s : State) (action : Action) : List (Publication Nat Bytes) :=
  match readOf s action with
  | none => []
  | some (fd,chunk) => ((lineText (userName fd) chunk).map fun text => ⟨text,member s⟩).toList

def got (s : State) (i : Nat) : List Bytes := sentTo s.writes i

def owed (s : State) (i : Nat) : List Bytes :=
  match s.pc with
  | .broadcast _ text k _ => if k ≤ i ∧ member s i then [text] else []
  | _ => []

theorem published_quiet (nothing : readOf s action = none) : published s action = [] := by
  rw [published,nothing]

theorem published_text (out : entry ∈ published s action) : ∃ fd c chunk, s.conns fd = some c ∧
    c.read = .data chunk ∧ (chunk.length < MAXLINE ∨ 0 ∈ chunk) ∧ entry.message = padded fd (untilNul chunk) ∧
    entry.audience = member s := by
  unfold published at out
  split at out
  · cases out
  · rename_i fd chunk found
    obtain ⟨c,opened,data⟩ := readOf_some found
    simp only [Option.toList_map,List.mem_map,Option.mem_toList] at out
    obtain ⟨text,printed,rfl⟩ := out
    obtain ⟨msg,isString,shown,_⟩ := lineText_parts printed
    have ended : (received chunk).isSome := by rw [isString]; rfl
    rw [received_untilNul isString] at shown
    exact ⟨fd,c,chunk,opened,data,(received_isSome chunk).mp ended,shown,rfl⟩

theorem relays_step (owned : Owned s) (stepped : Stepped listenfd s action next) (live : next.pc.live = true) (i : Nat) :
    got next i ++ owed next i = got s i ++ owed s i ++ due (published s action) i := by
  cases stepped with
  | connect _ => simp [got,owed,published,readOf,member]
  | pendingPeer _ waiting moved => simp [got,owed,published,readOf,member]
  | peer _ opened moved => simp [got,owed,published,readOf,member]
  | epollWait waiting single events => simp [got,owed,published,readOf,waiting]
  | acceptFails here => cases live
  | overindexes here large => cases live
  | accepts here first other free unused small => simp [got,owed,published,readOf,here]
  | usesFreed here freed => cases live
  | overreads here block opened data unprinted => cases live
  | reads here block opened data printed =>
    rename_i user c chunk text accepted addr rest
    rw [(owned.named addr user block).1] at printed
    simp [got,owed,published,readOf_reads here block opened data,printed,here,member]
  | removes here block ended =>
    rw [published_quiet (readOf_removes here block ended)]
    simp [got,owed,removeClient,here]
  | skips looping inside silent =>
    rename_i k addr text rest
    have unlisted : member s k = false := by
      refine Bool.eq_false_iff.mpr fun listed => ?_
      have here := of_decide_eq_true listed
      rcases silent with silent | gone
      · exact silent here
      · exact (owned.listed k).mp here gone
    have later := owed_skips unlisted text i
    show got s i ++ (if k+1 ≤ i ∧ member s i = true then [text] else []) = _
    rw [later]
    simp only [owed,published,readOf,looping,due_nil,List.append_nil]
  | breaks looping inside listed opened broken => cases live
  | writes looping inside listed opened whole =>
    rename_i k c addr text rest
    have meant : member s k = true := by simp [member,listed]
    simp only [got,owed,published,readOf,looping,sentTo_snoc,due_nil,List.append_nil]
    rw [List.append_assoc]
    exact congrArg _ (owed_sends meant text i)
  | finishes looping outside =>
    rename_i k rest addr text
    have past : ∀ j, member s j = true → j < k := by
      intro j listed
      have within := member_inside owned (of_decide_eq_true listed)
      omega
    have nothing := owed_past past text i
    simp only [got,owed,published,readOf,looping,nothing,due_nil,List.append_nil]

theorem halts_step (stepped : Stepped listenfd s action next) (dead : ¬ next.pc.live = true) : got next = got s := by
  cases stepped with
  | connect live => exact absurd live dead
  | pendingPeer live pending moved => exact absurd live dead
  | peer live opened moved => exact absurd live dead
  | writes looping inside listed opened whole => exact absurd rfl dead
  | _ => rfl

theorem chat_relay (listenfd : Nat) :
    Relay (step listenfd) Owned (fun s => s.pc.live = true) published got owed where
  kept _ _ _ owned ran := owned_preserved owned (step_sound ran)
  running _ _ _ ran := stepped_live (step_sound ran)
  relays _ _ _ owned ran live i := relays_step owned (step_sound ran) live i
  halts _ _ _ _ ran dead := halts_step (step_sound ran) dead

def chatLog (listenfd : Nat) (actions : List Action) : List (Publication Nat Bytes) :=
  emitted (step listenfd) published initial actions

theorem run_owned (ran : run (step listenfd) initial actions = some s) : Owned s :=
  run_invariant (fun _ _ _ owned stepped => owned_preserved owned (step_sound stepped)) initial_owned ran

-- One log for all clients, whatever batches epoll_wait reports. The sender of a
-- message is always one of those it is meant for.
theorem epoll_total_order (ran : run (step listenfd) initial actions = some s) :
    Common (chatLog listenfd actions) (got s) ∧
    (∀ rest, s.pc = .batch rest → ∀ i, got s i = due (chatLog listenfd actions) i) ∧
    (∀ i j, (∀ entry ∈ chatLog listenfd actions, entry.audience i = entry.audience j) →
      got s i <+: got s j ∨ got s j <+: got s i) ∧
    ∀ entry ∈ chatLog listenfd actions, ∃ fd chunk, chunk ≠ [] ∧ (chunk.length < MAXLINE ∨ 0 ∈ chunk) ∧
      entry.message = padded fd (untilNul chunk) ∧ entry.audience fd = true := by
  have common : Common (chatLog listenfd actions) (got s) := run_front (chat_relay listenfd) initial_owned ran
  refine ⟨common,?_,fun i j same => common_agrees common same,?_⟩
  · intro rest between i
    have relayed := run_relays (chat_relay listenfd) initial_owned (by rw [between]; rfl) ran i
    have nothing : owed s i = [] := by simp [owed,between]
    rw [nothing,List.append_nil] at relayed
    exact relayed
  · intro entry member
    obtain ⟨_,action,_,before,_,reached,out⟩ := emitted_source member
    obtain ⟨fd,c,chunk,opened,data,ended,shown,audience⟩ := published_text out
    have listed := ((run_owned reached).listed fd).mpr (by simp [opened])
    refine ⟨fd,chunk,?_,ended,shown,?_⟩
    · obtain ⟨waiting,front,_⟩ := read_data data
      rw [front]
      simp [List.take_eq_nil_iff,waiting,MAXLINE]
    · rw [audience]
      exact decide_eq_true listed

def conversation : List Action :=
  [.connect,.connect,.epollWait [none],.handle (some (4,100)),.epollWait [none],.handle (some (5,101)),
    .peer 5 (.data [104,0,105]),.epollWait [some 5],.handle none] ++ List.replicate 6 .write

theorem epoll_total_order_two : ∃ s, run (step 3) initial conversation = some s ∧ Common (chatLog 3 conversation) (got s) ∧
    got s 4 = [padded 5 [104]] ∧ (got s 4 <+: got s 5 ∨ got s 5 <+: got s 4) := by
  have ends : (run (step 3) initial conversation).map (fun s => got s 4) = some [padded 5 [104]] := by decide +kernel
  obtain ⟨s,ran,heard⟩ := Option.map_eq_some_iff.mp ends
  obtain ⟨common,_,agree,_⟩ := epoll_total_order ran
  have same : ∀ entry ∈ chatLog 3 conversation, entry.audience 4 = entry.audience 5 := by decide +kernel
  exact ⟨s,ran,common,heard,agree 4 5 same⟩

end NetworkEx.EpollOrder
