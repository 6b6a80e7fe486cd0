import NetworkEx.GroupBroadcast
import NetworkEx.RtsFidelity

namespace NetworkEx.RtsOrder
open ByteStreams CText ChatSockets TransitionRuns GroupBroadcast RtsChat RtsFidelity

def member (s : State) (i : Nat) : Bool := decide (i < maxClients) && decide (s.userFds i = 1)

def readOf (listenfd : Nat) (s : State) : Action → Option (Nat × Bytes)
  | .take _ =>
    match s.pc,s.signals with
    | .wait,fd :: _ =>
      if fd = listenfd then none
      else (s.conns fd).bind fun c =>
        match c.read with
        | .data chunk => some (fd,chunk)
        | _ => none
    | _,_ => none
  | _ => none

def published (listenfd : Nat) (s : State) (action : Action) : List (Publication Nat Bytes) :=
  match readOf listenfd s action with
  | none => []
  | some (fd,chunk) => ((chatText fd chunk).map fun printed => ⟨printed.2,member s⟩).toList

-- What write was called with for a descriptor, and what it took of that.
def called (s : State) (i : Nat) : List Bytes := sentTo s.calls i
def got (s : State) (i : Nat) : List Bytes := sentTo s.writes i

def owed (s : State) (i : Nat) : List Bytes :=
  match s.pc with
  | .broadcast _ _ text k => if k ≤ i ∧ member s i then [text] else []
  | _ => []

theorem readOf_reads (waiting : s.pc = .wait) (head : s.signals = fd :: rest) (other : fd ≠ listenfd)
    (opened : s.conns fd = some c) (data : c.read = .data chunk) (accepted : Option Nat) :
    readOf listenfd s (.take accepted) = some (fd,chunk) := by
  simp [readOf,waiting,head,other,opened,data]

theorem readOf_quiet (waiting : s.pc = .wait) (head : s.signals = fd :: rest)
    (quiet : fd = listenfd ∨ s.conns fd = none ∨ ∃ c, s.conns fd = some c ∧ ∀ chunk, c.read ≠ .data chunk)
    (accepted : Option Nat) : readOf listenfd s (.take accepted) = none := by
  rcases quiet with same | gone | ⟨c,opened,silent⟩
  · simp [readOf,waiting,head,same]
  · simp [readOf,waiting,head,gone]
  · cases result : c.read with
    | data chunk => exact absurd result (silent chunk)
    | _ => simp [readOf,waiting,head,opened,result]

theorem readOf_drops (waiting : s.pc = .wait) (head : s.signals = fd :: rest) (opened : s.conns fd = some c)
    (ended : c.read = .error ∨ c.read = .eof ∨ (c.read = .again ∧ c.nonblock = true)) (accepted : Option Nat) :
    readOf listenfd s (.take accepted) = none := by
  refine readOf_quiet waiting head (.inr (.inr ⟨c,opened,?_⟩)) accepted
  rintro chunk data
  rcases ended with ended | ended | ⟨ended,_⟩ <;> cases ended.symm.trans data

theorem readOf_some (found : readOf listenfd s action = some (fd,chunk)) : ∃ c, s.conns fd = some c ∧ c.read = .data chunk := by
  unfold readOf at found
  split at found
  · split at found
    · split at found
      · cases found
      · obtain ⟨c,opened,data⟩ := Option.bind_eq_some_iff.mp found
        split at data
        · rename_i result
          cases data
          exact ⟨c,opened,result⟩
        · cases data
    · cases found
  · cases found

theorem published_quiet (nothing : readOf listenfd s action = none) : published listenfd s action = [] := by
  rw [published,nothing]

theorem stepped_live (stepped : Stepped listenfd s action next) : s.pc.live = true := by
  cases stepped <;> first | assumption | simp_all [Pc.live]

theorem called_sends (looping : s.pc = .broadcast fd msg text k) (meant : member s k = true) (i : Nat) :
    sentTo (s.calls ++ [(k,text)]) i ++ (if k+1 ≤ i ∧ member s i = true then [text] else []) = called s i ++ owed s i := by
  simp only [called,owed,looping,sentTo_snoc]
  rw [List.append_assoc]
  exact congrArg _ (owed_sends meant text i)

-- A read promises its text to everyone listed; no other step promises anything,
-- and none takes a promise back.
theorem relays_step (valid : Members s) (stepped : Stepped listenfd s action next) (live : next.pc.live = true) (i : Nat) :
    called next i ++ owed next i = called s i ++ owed s i ++ due (published listenfd s action) i := by
  cases stepped with
  | connect _ => simp [called,owed,published,readOf,member]
  | pendingPeer _ pending moved => simp [called,owed,published,readOf,member]
  | peer _ opened moved => simp [called,owed,published,readOf,member]
  | setupListener starting => simp [called,owed,published,readOf,starting]
  | acceptFails waiting head =>
    rw [published_quiet (readOf_quiet waiting head (.inl rfl) _)]
    simp [called,owed,waiting]
  | accepts waiting head first other small free =>
    rw [published_quiet (readOf_quiet waiting head (.inl rfl) _)]
    simp [called,owed,waiting]
  | stale waiting head other gone =>
    rw [published_quiet (readOf_quiet waiting head (.inr (.inl gone)) _)]
    simp [called,owed,waiting,drop]
  | overreads waiting head other opened data unprinted => cases live
  | reads waiting head other opened data printed =>
    simp [called,owed,published,readOf_reads waiting head other opened data,printed,waiting,member]
  | drops waiting head other opened ended =>
    rw [published_quiet (readOf_drops waiting head opened ended _)]
    simp [called,owed,waiting,drop]
  | registers here opened ready small => simp [called,owed,published,readOf,here]
  | overindexes here opened ready large => cases live
  | setupFails here opened unready => simp [called,owed,published,readOf,here]
  | skips looping inside silent =>
    rename_i k answer fd msg text
    have unlisted : member s k = false := by simp [member,silent]
    have later := owed_skips unlisted text i
    show called s i ++ (if k+1 ≤ i ∧ member s i = true then [text] else []) = _
    rw [later]
    simp only [owed,published,readOf,looping,due_nil,List.append_nil]
  | misses looping inside listed gone =>
    obtain ⟨c,opened,_⟩ := valid.registered _ listed
    cases gone.symm.trans opened
  | breaks looping inside listed opened broken => cases live
  | refuses looping inside listed | writes looping inside listed =>
    have promised := called_sends looping (by simp [member,inside,listed]) i
    simp only [published,readOf,due_nil,List.append_nil]
    exact promised
  | finishes looping outside =>
    rename_i k answer fd msg text
    have past : ∀ j, member s j = true → j < k := by
      intro j listed
      simp only [member,Bool.and_eq_true,decide_eq_true_eq] at listed
      exact Nat.lt_of_lt_of_le listed.1 (Nat.le_of_not_lt outside)
    have nothing := owed_past past text i
    simp only [called,owed,published,readOf,looping,nothing,due_nil,List.append_nil]

theorem halts_step (stepped : Stepped listenfd s action next) (dead : ¬ next.pc.live = true) : called next = called s := by
  cases stepped with
  | connect live => exact absurd live dead
  | pendingPeer live pending moved => exact absurd live dead
  | peer live opened moved => exact absurd live dead
  | misses | refuses | writes => exact absurd rfl dead
  | _ => rfl

theorem chat_relay (listenfd : Nat) :
    Relay (step listenfd) Members (fun s => s.pc.live = true) (published listenfd) called owed where
  kept _ _ _ valid ran := members_preserved valid (step_sound ran)
  running _ _ _ ran := stepped_live (step_sound ran)
  relays _ _ _ valid ran live i := relays_step valid (step_sound ran) live i
  halts _ _ _ _ ran dead := halts_step (step_sound ran) dead

-- The kernel takes the whole text at each write to a registered client, or ends
-- the process there.
def takesAll (s : State) : Action → Bool
  | .write answer =>
    match s.pc with
    | .broadcast _ _ text i => s.userFds i ≠ 1 || answer = .took text.length || answer = .sigpipe
    | _ => true
  | _ => true

structure Kept (s : State) : Prop where
  members : Members s
  whole : s.writes = s.calls

theorem initial_kept : Kept initial := ⟨initial_members,rfl⟩

theorem kept_preserved (kept : Kept s) (takes : takesAll s action = true) (stepped : Stepped listenfd s action next) :
    Kept next := by
  refine ⟨members_preserved kept.members stepped,?_⟩
  cases stepped with
  | misses looping inside listed gone =>
    obtain ⟨c,opened,_⟩ := kept.members.registered _ listed
    cases gone.symm.trans opened
  | refuses looping inside listed => simp [takesAll,looping,listed] at takes
  | writes looping inside listed opened well fits =>
    simp only [takesAll,looping,listed] at takes
    simp at takes
    simp [takes,kept.whole]
  | _ => exact kept.whole

theorem got_called (kept : Kept s) : got s = called s := by
  funext i
  rw [got,called,kept.whole]

-- Each publication is one read that has an end in the buffer, under the name of
-- the descriptor it came from.
theorem published_text (out : entry ∈ published listenfd s action) : ∃ fd c chunk, s.conns fd = some c ∧
    c.read = .data chunk ∧ (chunk.length < MAXLINE ∨ 0 ∈ chunk) ∧ entry.message = greeting fd (untilNul chunk) := by
  unfold published at out
  split at out
  · cases out
  · rename_i fd chunk found
    obtain ⟨c,opened,data⟩ := readOf_some found
    simp only [Option.toList_map,List.mem_map,Option.mem_toList] at out
    obtain ⟨⟨msg,text⟩,printed,rfl⟩ := out
    obtain ⟨isString,shown,_⟩ := chatText_parts printed
    have ended : (received chunk).isSome := by rw [isString]; rfl
    rw [received_untilNul isString] at shown
    exact ⟨fd,c,chunk,opened,data,(received_isSome chunk).mp ended,shown⟩

def chatLog (listenfd : Nat) (actions : List Action) : List (Publication Nat Bytes) :=
  emitted (step listenfd) (published listenfd) initial actions

-- Whatever order the network and the clients drive main in, the messages of all
-- clients come off one log. Write is called for a client with a front of what the
-- log holds for it, and all of that when main waits for the next signal; where the
-- kernel takes each text whole the client gets just that.
theorem chat_total_order (ran : run (step listenfd) initial actions = some s) :
    Common (chatLog listenfd actions) (called s) ∧
    (s.pc = .wait → ∀ i, called s i = due (chatLog listenfd actions) i) ∧
    (∀ i j, (∀ entry ∈ chatLog listenfd actions, entry.audience i = entry.audience j) →
      called s i <+: called s j ∨ called s j <+: called s i) ∧
    (∀ entry ∈ chatLog listenfd actions, ∃ fd chunk, chunk ≠ [] ∧ (chunk.length < MAXLINE ∨ 0 ∈ chunk) ∧
      entry.message = greeting fd (untilNul chunk)) ∧
    (Every (step listenfd) (fun s action => takesAll s action = true) initial actions → ∀ i, got s i = called s i) := by
  have common : Common (chatLog listenfd actions) (called s) := run_front (chat_relay listenfd) initial_members ran
  refine ⟨common,?_,fun i j same => common_agrees common same,?_,?_⟩
  · intro waiting i
    have relayed := run_relays (chat_relay listenfd) initial_members (by rw [waiting]; rfl) ran i
    have nothing : owed s i = [] := by simp [owed,waiting]
    rw [nothing,List.append_nil] at relayed
    exact relayed
  · intro entry member
    obtain ⟨_,action,_,before,_,_,out⟩ := emitted_source member
    obtain ⟨fd,c,chunk,_,data,ended,shown⟩ := published_text out
    refine ⟨fd,chunk,?_,ended,shown⟩
    obtain ⟨waiting,front,_⟩ := read_data data
    rw [front]
    simp [List.take_eq_nil_iff,waiting,MAXLINE]
  · intro takes i
    have kept : Kept s := run_preserves (fun _ _ _ kept here moved => kept_preserved kept here (step_sound moved))
      initial_kept takes ran
    rw [got_called kept]

def conversation : List Action :=
  [.setupListener answered,.connect,.take (some 4),.setupClient answered,.connect,.take (some 5),.setupClient answered,
    .peer 5 (.data (ascii "hi")),.take none] ++ turns (fun _ => .took 16) 0 6

theorem chat_total_order_two : ∃ s, run (step 3) initial conversation = some s ∧ Common (chatLog 3 conversation) (called s) ∧
    got s 4 = [greeting 5 (ascii "hi")] ∧ got s 4 = called s 4 ∧ (called s 4 <+: called s 5 ∨ called s 5 <+: called s 4) := by
  have ends : (run (step 3) initial conversation).map (fun s => got s 4) = some [greeting 5 (ascii "hi")] := by decide +kernel
  obtain ⟨s,ran,heard⟩ := Option.map_eq_some_iff.mp ends
  obtain ⟨common,_,agree,_,whole⟩ := chat_total_order ran
  have same : ∀ entry ∈ chatLog 3 conversation, entry.audience 4 = entry.audience 5 := by decide +kernel
  have takes : Every (step 3) (fun s action => takesAll s action = true) initial conversation := by decide +kernel
  exact ⟨s,ran,common,heard,whole takes 4,agree 4 5 same⟩

end NetworkEx.RtsOrder
