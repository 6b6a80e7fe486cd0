import NetworkEx.BlockFifo
import NetworkEx.CText
import NetworkEx.TransitionRuns

namespace NetworkEx.FifoEcho
open ByteStreams BlockFifo CText TransitionRuns

def MAXLINE : Nat := 1024

-- What one read of the terminal brings: nothing at its end.
abbrev Line := {bytes : Bytes // bytes.length ≤ MAXLINE}

-- Both programs clear buf before each read.
def filled (bytes : Bytes) : Bytes := overlay bytes (List.replicate MAXLINE 0)

-- strncmp(buf,"quit\n",5) == 0. No NUL is among these five bytes.
def quits (buf : Bytes) : Bool := decide (buf.take 5 = ascii "quit\n")

inductive Client where
  | prompt
  | writing (buf : Bytes)
  | printing (buf : Bytes)
  | exited
  deriving DecidableEq

inductive Server where
  | reading
  | writing (buf : Bytes)
  | exited
  deriving DecidableEq

-- The client writes myfifo_r and the server myfifo_w. Both open both of them
-- O_RDWR, so that no read ends and no write breaks. `taken` and `answered` are
-- history: the messages made of lines, and those the server has written back.
structure State where
  client : Client
  server : Server
  myfifoR : Bytes
  myfifoW : Bytes
  taken : List Bytes
  answered : List Bytes
  deriving DecidableEq

def initial : State := ⟨.prompt,.reading,[],[],[],[]⟩

inductive Action where
  | line (line : Line)
  | readError
  | send
  | print
  | receive
  | receiveError
  | answer

def Action.line? : Action → Option Line
  | .line input => some input
  | _ => none

-- MAXLINE bytes are within PIPE_BUF, so a write puts all of them or waits. What
-- printf shows of a buffer without a NUL is left open; the loop goes on.
def step (capR capW : Nat) (s : State) : Action → Option State
  | .line line =>
    match s.client with
    | .prompt =>
      let buf := filled line.val
      if quits buf then some {s with client := .exited}
      else some {s with client := .writing buf,taken := s.taken ++ [buf]}
    | _ => none
  | .readError => if s.client = .prompt then some {s with client := .exited} else none
  | .send =>
    match s.client with
    | .writing buf => (push capR s.myfifoR buf).map fun queue => {s with client := .printing buf,myfifoR := queue}
    | _ => none
  | .print =>
    match s.client with
    | .printing _ => some {s with client := .prompt}
    | _ => none
  | .receive =>
    match s.server with
    | .reading =>
      (pull MAXLINE s.myfifoR).map fun result => {s with server := .writing (filled result.1),myfifoR := result.2}
    | _ => none
  | .receiveError => if s.server = .reading then some {s with server := .exited} else none
  | .answer =>
    match s.server with
    | .writing buf =>
      (push capW s.myfifoW buf).map fun queue =>
        {s with server := .reading,myfifoW := queue,answered := s.answered ++ [buf]}
    | _ => none

inductive Stepped (capR capW : Nat) : State → Action → State → Prop where
  | quits (here : s.client = .prompt) (quit : quits (filled line.val) = true) :
      Stepped capR capW s (.line line) {s with client := .exited}
  | takes (here : s.client = .prompt) (message : quits (filled line.val) = false) :
      Stepped capR capW s (.line line) {s with client := .writing (filled line.val),taken := s.taken ++ [filled line.val]}
  | leaves (here : s.client = .prompt) : Stepped capR capW s .readError {s with client := .exited}
  | sends (here : s.client = .writing buf) (pushed : push capR s.myfifoR buf = some queue) :
      Stepped capR capW s .send {s with client := .printing buf,myfifoR := queue}
  | prints (here : s.client = .printing buf) : Stepped capR capW s .print {s with client := .prompt}
  | receives (here : s.server = .reading) (pulled : pull MAXLINE s.myfifoR = some (bytes,queue)) :
      Stepped capR capW s .receive {s with server := .writing (filled bytes),myfifoR := queue}
  | fails (here : s.server = .reading) : Stepped capR capW s .receiveError {s with server := .exited}
  | answers (here : s.server = .writing buf) (pushed : push capW s.myfifoW buf = some queue) :
      Stepped capR capW s .answer {s with server := .reading,myfifoW := queue,answered := s.answered ++ [buf]}

theorem step_sound (ran : step capR capW s action = some next) : Stepped capR capW s action next := by
  cases action with
  | line line =>
    simp only [step] at ran
    split at ran
    · rename_i here
      split at ran
      · rename_i quit
        cases ran
        exact .quits here quit
      · rename_i message
        cases ran
        exact .takes here (Bool.eq_false_iff.mpr message)
    · cases ran
  | readError =>
    simp only [step,Option.ite_none_right_eq_some,Option.some.injEq] at ran
    obtain ⟨here,rfl⟩ := ran
    exact .leaves here
  | send =>
    simp only [step] at ran
    split at ran
    · rename_i buf here
      obtain ⟨queue,pushed,rfl⟩ := Option.map_eq_some_iff.mp ran
      exact .sends here pushed
    · cases ran
  | print =>
    simp only [step] at ran
    split at ran
    · rename_i buf here
      cases ran
      exact .prints here
    · cases ran
  | receive =>
    simp only [step] at ran
    split at ran
    · rename_i here
      obtain ⟨result,pulled,rfl⟩ := Option.map_eq_some_iff.mp ran
      exact .receives here pulled
    · cases ran
  | receiveError =>
    simp only [step,Option.ite_none_right_eq_some,Option.some.injEq] at ran
    obtain ⟨here,rfl⟩ := ran
    exact .fails here
  | answer =>
    simp only [step] at ran
    split at ran
    · rename_i buf here
      obtain ⟨queue,pushed,rfl⟩ := Option.map_eq_some_iff.mp ran
      exact .answers here pushed
    · cases ran

-- Both processes are in a write for which there is no room.
def Wedged (capR capW : Nat) (s : State) : Prop :=
  (∃ buf, s.client = .writing buf ∧ push capR s.myfifoR buf = none) ∧
    ∃ buf, s.server = .writing buf ∧ push capW s.myfifoW buf = none

-- The text behind "Server ->" is that of the server's message for the line.
def Prints (s : State) : Action → Prop
  | .print => ∀ buf, s.client = .printing buf →
      ∃ text, cstring buf = some text ∧ (s.answered[s.taken.length - 1]?).bind cstring = some text
  | _ => True

-- Where it takes a message, the client has taken no more than both FIFOs hold.
def Roomy (capR capW : Nat) (s : State) : Action → Prop
  | .line line => quits (filled line.val) = false → s.taken.length ≤ capR / MAXLINE + capW / MAXLINE
  | _ => True

-- The server has written for the line, and the line has a NUL within buf.
def Answered (s : State) : Action → Prop
  | .print => ∀ buf, s.client = .printing buf → s.taken.length ≤ s.answered.length ∧ 0 ∈ buf
  | _ => True

def Client.held : Client → List Bytes
  | .prompt => []
  | .writing buf => [buf]
  | .printing _ => []
  | .exited => []

def Server.held : Server → List Bytes
  | .reading => []
  | .writing buf => [buf]
  | .exited => []

-- The messages taken are, oldest first, those answered, the one the server has
-- in hand, those queued to it, and the one the client has in hand. Nothing
-- leaves myfifo_w.
structure Aligned (capR capW : Nat) (queued : List Bytes) (s : State) : Prop where
  requests : Carries MAXLINE queued s.myfifoR
  answers : Carries MAXLINE s.answered s.myfifoW
  roomR : s.myfifoR.length ≤ capR
  roomW : s.myfifoW.length ≤ capW
  order : s.taken = s.answered ++ s.server.held ++ queued ++ s.client.held
  sized : ∀ message ∈ s.taken, message.length = MAXLINE
  current : ∀ buf, s.client = .printing buf → s.taken.getLast? = some buf

theorem initial_aligned (capR capW : Nat) : Aligned capR capW [] initial :=
  ⟨carries_nil _,carries_nil _,Nat.zero_le _,Nat.zero_le _,rfl,by simp [initial],nofun⟩

theorem filled_length (fits : bytes.length ≤ MAXLINE) : (filled bytes).length = MAXLINE := by
  rw [filled,overlay_length,List.length_replicate]
  exact Nat.max_eq_right fits

theorem filled_whole (whole : bytes.length = MAXLINE) : filled bytes = bytes :=
  overlay_whole (by rw [List.length_replicate]; exact Nat.le_of_eq whole.symm)

theorem aligned_held (aligned : Aligned capR capW queued s) :
    (∀ buf ∈ s.client.held, buf.length = MAXLINE) ∧ ∀ buf ∈ s.server.held, buf.length = MAXLINE := by
  constructor
  · intro buf member
    apply aligned.sized
    rw [aligned.order]
    exact List.mem_append_right _ member
  · intro buf member
    apply aligned.sized
    rw [aligned.order]
    simp [member]

theorem aligned_client (aligned : Aligned capR capW queued s) (empty : s.client.held = [])
    (idle : client = .prompt ∨ client = .exited) : Aligned capR capW queued {s with client := client} := by
  have order := aligned.order
  rw [empty] at order
  rcases idle with rfl | rfl
  · exact ⟨aligned.requests,aligned.answers,aligned.roomR,aligned.roomW,order,aligned.sized,nofun⟩
  · exact ⟨aligned.requests,aligned.answers,aligned.roomR,aligned.roomW,order,aligned.sized,nofun⟩

theorem aligned_preserved (aligned : Aligned capR capW queued s) (stepped : Stepped capR capW s action next) :
    ∃ later, Aligned capR capW later next := by
  have order := aligned.order
  obtain ⟨clientSized,serverSized⟩ := aligned_held aligned
  cases stepped with
  | quits here quit | leaves here => exact ⟨queued,aligned_client aligned (by rw [here]; rfl) (.inr rfl)⟩
  | prints here => exact ⟨queued,aligned_client aligned (by rw [here]; rfl) (.inl rfl)⟩
  | takes here message =>
    rename_i line
    rw [here,Client.held,List.append_nil] at order
    refine ⟨queued,aligned.requests,aligned.answers,aligned.roomR,aligned.roomW,?_,?_,nofun⟩
    · simp only [Client.held,order]
    · have sized := filled_length line.property
      exact List.forall_mem_append.mpr ⟨aligned.sized,List.forall_mem_singleton.mpr sized⟩
  | sends here pushed =>
    rename_i buf queue
    rw [here] at order clientSized
    have size : buf.length = MAXLINE := clientSized buf (by simp [Client.held])
    refine ⟨queued ++ [buf],carries_push aligned.requests size pushed,aligned.answers,(push_parts pushed).2,
      aligned.roomW,?_,aligned.sized,?_⟩
    · simpa [Client.held] using order
    · intro other same
      cases same
      show s.taken.getLast? = some buf
      rw [order]
      simp [Client.held]
  | receives here pulled =>
    rename_i bytes queue
    obtain ⟨rest,rfl,requests⟩ := carries_pull aligned.requests pulled
    have whole : filled bytes = bytes := filled_whole (aligned.requests.sized bytes List.mem_cons_self)
    rw [here] at order
    refine ⟨rest,requests,aligned.answers,?_,aligned.roomW,?_,aligned.sized,aligned.current⟩
    · obtain ⟨_,rfl,_⟩ := pull_parts pulled
      have within := aligned.roomR
      show (s.myfifoR.drop MAXLINE).length ≤ capR
      rw [List.length_drop]
      omega
    · simpa [Server.held,whole] using order
  | fails here =>
    rw [here] at order
    exact ⟨queued,aligned.requests,aligned.answers,aligned.roomR,aligned.roomW,order,aligned.sized,aligned.current⟩
  | answers here pushed =>
    rename_i buf queue
    rw [here] at order serverSized
    have size : buf.length = MAXLINE := serverSized buf (by simp [Server.held])
    refine ⟨queued,aligned.requests,carries_push aligned.answers size pushed,aligned.roomR,(push_parts pushed).2,?_,
      aligned.sized,aligned.current⟩
    simpa [Server.held] using order

theorem answered_first (aligned : Aligned capR capW queued s) : s.answered <+: s.taken := by
  rw [aligned.order,List.append_assoc,List.append_assoc]
  exact List.prefix_append _ _

theorem aligned_count (aligned : Aligned capR capW queued s) :
    s.taken.length = s.answered.length + s.server.held.length + queued.length + s.client.held.length := by
  rw [aligned.order,List.length_append,List.length_append,List.length_append]

theorem held_le (server : Server) : server.held.length ≤ 1 := by
  cases server <;> simp [Server.held]

theorem held_one (server : Server) : server.held.length = 1 ↔ ∃ buf, server = .writing buf := by
  cases server <;> simp [Server.held]

theorem positive : 0 < MAXLINE := Nat.succ_pos _

theorem wedged_exact (aligned : Aligned capR capW queued s) :
    Wedged capR capW s ↔ (∃ buf, s.client = .writing buf) ∧ capR / MAXLINE + capW / MAXLINE + 2 ≤ s.taken.length := by
  have count := aligned_count aligned
  have requests := carries_within positive aligned.requests aligned.roomR
  have answers := carries_within positive aligned.answers aligned.roomW
  have inHand := held_le s.server
  obtain ⟨clientSized,serverSized⟩ := aligned_held aligned
  constructor
  · intro ⟨⟨buf,writing,noRoom⟩,other,busy,noRoomW⟩
    rw [writing] at count clientSized
    rw [busy] at count serverSized
    have full := (carries_full positive aligned.requests (clientSized buf (by simp [Client.held]))).mp noRoom
    have fullW := (carries_full positive aligned.answers (serverSized other (by simp [Server.held]))).mp noRoomW
    refine ⟨⟨buf,writing⟩,?_⟩
    simp only [Client.held,Server.held,List.length_singleton] at count
    omega
  · intro ⟨⟨buf,writing⟩,many⟩
    rw [writing] at count clientSized
    simp only [Client.held,List.length_singleton] at count
    obtain ⟨other,busy⟩ := (held_one s.server).mp (by omega)
    rw [busy] at serverSized
    refine ⟨⟨buf,writing,?_⟩,other,busy,?_⟩
    · apply (carries_full positive aligned.requests (clientSized buf (by simp [Client.held]))).mpr
      omega
    · apply (carries_full positive aligned.answers (serverSized other (by simp [Server.held]))).mpr
      omega

theorem wedged_step (aligned : Aligned capR capW queued s) (free : ¬ Wedged capR capW s)
    (stepped : Stepped capR capW s action next) : ¬ Wedged capR capW next ↔ Roomy capR capW s action := by
  obtain ⟨later,kept⟩ := aligned_preserved aligned stepped
  rw [wedged_exact kept]
  rw [wedged_exact aligned] at free
  cases stepped with
  | takes here message =>
    rename_i line
    have longer : (s.taken ++ [filled line.val]).length = s.taken.length + 1 := List.length_append
    constructor
    · intro able _
      by_contra many
      exact able ⟨⟨_,rfl⟩,by rw [longer]; omega⟩
    · intro roomy ⟨_,many⟩
      have few := roomy message
      rw [longer] at many
      omega
  | quits here quit => simp [Roomy,quit]
  | leaves | sends | prints => simp [Roomy]
  | receives | fails | answers => simpa [Roomy] using free

theorem prints_step (aligned : Aligned capR capW queued s) (action : Action) : Prints s action ↔ Answered s action := by
  cases action with
  | print =>
    apply forall_congr'
    intro buf
    apply forall_congr'
    intro here
    have last := aligned.current buf here
    have count := aligned_count aligned
    rw [List.getLast?_eq_getElem?] at last
    constructor
    · intro shows
      obtain ⟨text,shown,written⟩ := shows
      obtain ⟨message,there,_⟩ := Option.bind_eq_some_iff.mp written
      obtain ⟨within,_⟩ := List.getElem?_eq_some_iff.mp there
      exact ⟨by omega,cstring_isSome.mp (by rw [shown]; rfl)⟩
    · intro written
      obtain ⟨all,terminated⟩ := written
      obtain ⟨text,shown⟩ := Option.isSome_iff_exists.mp (cstring_isSome.mpr terminated)
      have whole : s.answered = s.taken := (answered_first aligned).eq_of_length (by omega)
      refine ⟨text,shown,?_⟩
      rw [whole,last]
      exact shown
  | line | readError | send | receive | receiveError | answer => exact Iff.rfl

def InOrder (capR capW : Nat) (s : State) : Prop := ∃ queued, Aligned capR capW queued s

theorem inOrder_along (s : State) (action : Action) (next : State) (kept : InOrder capR capW s)
    (moved : step capR capW s action = some next) : InOrder capR capW next := by
  obtain ⟨_,aligned⟩ := kept
  exact aligned_preserved aligned (step_sound moved)

theorem initial_inOrder : InOrder capR capW initial := ⟨[],initial_aligned capR capW⟩

theorem run_inOrder (kept : InOrder capR capW s) (ran : run (step capR capW) s actions = some t) : InOrder capR capW t :=
  run_invariant inOrder_along kept ran

theorem echo_exact (ran : run (step capR capW) initial actions = some t) :
    (Always (step capR capW) (fun s => ¬ Wedged capR capW s) initial actions ↔
      Every (step capR capW) (Roomy capR capW) initial actions) ∧
    (Every (step capR capW) Prints initial actions ↔ Every (step capR capW) Answered initial actions) := by
  constructor
  · apply always_iff_every (fun s action next kept _ moved => inOrder_along s action next kept moved) ?_ initial_inOrder ?_ ran
    · intro s action next kept free moved
      obtain ⟨_,aligned⟩ := kept
      exact wedged_step aligned free (step_sound moved)
    · intro wedged
      obtain ⟨_,writing,_⟩ := wedged.1
      cases writing
  · apply every_congr inOrder_along _ initial_inOrder
    intro s action kept
    obtain ⟨_,aligned⟩ := kept
    exact prints_step aligned action

-- How far a session can be taken: the server reads only when the client waits
-- for room.
structure Ready (s : State) (taken : Nat) : Prop where
  prompt : s.client = .prompt
  serves : s.server ≠ .exited
  count : s.taken.length = taken

def writes (s : State) (buf : Bytes) : State := {s with client := .writing buf,taken := s.taken ++ [buf]}

theorem room_of_pull (aligned : Aligned capR capW queued s) (pulled : pull MAXLINE s.myfifoR = some (bytes,queue))
    (size : buf.length = MAXLINE) : ∃ later, push capR queue buf = some later := by
  obtain ⟨rest,rfl,onward⟩ := carries_pull aligned.requests pulled
  have within := carries_within positive aligned.requests aligned.roomR
  rw [← Option.isSome_iff_exists,Option.isSome_iff_ne_none]
  intro full
  have many := (carries_full positive onward size).mp full
  rw [List.length_cons] at within
  omega

theorem makes_room (aligned : Aligned capR capW queued s) (waits : s.client = .writing buf) (serves : s.server ≠ .exited)
    (fits : 0 < capR / MAXLINE) (free : ¬ Wedged capR capW s) :
    ∃ actions next later, run (step capR capW) s actions = some next ∧ actions.filterMap Action.line? = [] ∧
      next.client = .writing buf ∧ next.server ≠ .exited ∧ next.taken = s.taken ∧
      push capR next.myfifoR buf = some later := by
  have size : buf.length = MAXLINE := (aligned_held aligned).1 buf (by simp [waits,Client.held])
  cases pushed : push capR s.myfifoR buf with
  | some later => exact ⟨[],s,later,rfl,rfl,waits,serves,rfl,pushed⟩
  | none =>
    have full := (carries_full positive aligned.requests size).mp pushed
    obtain ⟨message,behind,rfl⟩ := List.exists_cons_of_length_pos (Nat.lt_of_lt_of_le fits full)
    obtain ⟨queue,pulled,_⟩ := carries_pulls positive aligned.requests
    obtain ⟨later,room⟩ := room_of_pull aligned pulled size
    cases here : s.server with
    | exited => exact absurd here serves
    | reading =>
      refine ⟨[.receive],{s with server := .writing (filled message),myfifoR := queue},later,?_,rfl,waits,nofun,rfl,room⟩
      simp [run_cons,step,here,pulled]
    | writing other =>
      cases answered : push capW s.myfifoW other with
      | none => exact absurd ⟨⟨buf,waits,pushed⟩,other,here,answered⟩ free
      | some answers =>
        refine ⟨[.answer,.receive],{s with
          server := .writing (filled message),myfifoR := queue,myfifoW := answers,answered := s.answered ++ [other]},
          later,?_,rfl,waits,nofun,rfl,room⟩
        simp [run_cons,step,here,answered,pulled]

theorem line_writes (ready : s.client = .prompt) (message : quits (filled input.val) = false) :
    step capR capW s (.line input) = some (writes s (filled input.val)) := by
  simp [step,ready,message,writes]

theorem takes_next (aligned : Aligned capR capW queued s) (ready : Ready s n) (fits : 0 < capR / MAXLINE)
    (few : n ≤ capR / MAXLINE + capW / MAXLINE) (message : quits (filled input.val) = false) :
    ∃ actions next, run (step capR capW) s actions = some next ∧
      actions.filterMap Action.line? = [input] ∧ Ready next (n+1) := by
  have moved : step capR capW s (.line input) = some (writes s (filled input.val)) := line_writes ready.prompt message
  obtain ⟨later,kept⟩ := aligned_preserved aligned (step_sound moved)
  have counted : (writes s (filled input.val)).taken.length = n+1 := by
    rw [← ready.count]
    exact List.length_append
  have free : ¬ Wedged capR capW (writes s (filled input.val)) := by
    rw [wedged_exact kept,counted]
    omega
  obtain ⟨actions,middle,queue,ran,silent,waits,serves,taken,pushed⟩ := makes_room kept rfl ready.serves fits free
  refine ⟨.line input :: (actions ++ [.send,.print]),{middle with client := .prompt,myfifoR := queue},?_,?_,rfl,serves,?_⟩
  · rw [run_cons,moved,Option.bind_some,run_append,ran]
    simp [run_cons,step,waits,pushed]
  · rw [List.filterMap_cons,List.filterMap_append,silent]
    rfl
  · show middle.taken.length = n+1
    rw [taken,counted]

theorem takes_all (aligned : Aligned capR capW queued s) (ready : Ready s n) (fits : 0 < capR / MAXLINE)
    (messages : ∀ input ∈ inputs, quits (filled input.val) = false)
    (few : n + inputs.length ≤ capR / MAXLINE + capW / MAXLINE + 1) :
    ∃ actions next later, run (step capR capW) s actions = some next ∧
      actions.filterMap Action.line? = inputs ∧ Ready next (n + inputs.length) ∧ Aligned capR capW later next := by
  induction inputs generalizing queued s n with
  | nil => exact ⟨[],s,queued,rfl,rfl,ready,aligned⟩
  | cons input inputs ih =>
    rw [List.length_cons] at few
    obtain ⟨first,middle,ran,shown,still⟩ := takes_next aligned ready fits (by omega) (messages input List.mem_cons_self)
    obtain ⟨between,kept⟩ := run_inOrder ⟨queued,aligned⟩ ran
    obtain ⟨rest,next,later,onward,others,ends,ended⟩ :=
      ih kept still (fun other member => messages other (List.mem_cons_of_mem _ member)) (by omega)
    refine ⟨first ++ rest,next,later,?_,?_,?_,ended⟩
    · rw [run_append,ran]
      exact onward
    · rw [List.filterMap_append,shown,others]
      rfl
    · rw [List.length_cons]
      rw [Nat.add_right_comm] at ends
      exact ends

theorem session_wedges (fits : 0 < capR / MAXLINE) (messages : ∀ input ∈ inputs, quits (filled input.val) = false)
    (many : inputs.length = capR / MAXLINE + capW / MAXLINE + 2) :
    ∃ actions t, run (step capR capW) initial actions = some t ∧ actions.filterMap Action.line? = inputs ∧
      Wedged capR capW t := by
  rcases List.eq_nil_or_concat inputs with rfl | ⟨front,input,rfl⟩
  · cases many
  rw [List.concat_eq_append] at *
  have size : (front ++ [input]).length = front.length + 1 := List.length_append
  obtain ⟨actions,s,later,ran,shown,ready,aligned⟩ := takes_all (initial_aligned capR capW) (⟨rfl,nofun,rfl⟩ : Ready initial 0) fits
    (fun other member => messages other (List.mem_append_left _ member)) (by omega)
  have moved : step capR capW s (.line input) = some (writes s (filled input.val)) :=
    line_writes ready.prompt (messages input (by simp))
  obtain ⟨_,kept⟩ := aligned_preserved aligned (step_sound moved)
  refine ⟨actions ++ [.line input],writes s (filled input.val),?_,?_,(wedged_exact kept).mpr ⟨⟨_,rfl⟩,?_⟩⟩
  · rw [run_append,ran]
    exact congrArg (Option.bind · _) moved
  · rw [List.filterMap_append,shown]
    rfl
  · have count := ready.count
    simp only [writes,List.length_append,List.length_singleton]
    omega

def hello : Line := ⟨ascii "hello\n",by decide⟩

theorem hello_message : quits (filled hello.val) = false := by decide

theorem hello_length : (filled hello.val).length = 1024 := filled_length hello.property

theorem hello_again : filled ((filled hello.val).take MAXLINE) = filled hello.val := by
  rw [List.take_of_length_le (Nat.le_of_eq (filled_length hello.property)),filled_whole (filled_length hello.property)]

def answeredFirst : List Action := [.line hello,.send,.receive,.answer,.print]
def printedFirst : List Action := [.line hello,.send,.print]

theorem echo_exact_answered : ∃ t, run (step 65536 65536) initial answeredFirst = some t ∧
    Always (step 65536 65536) (fun s => ¬ Wedged 65536 65536 s) initial answeredFirst ∧
    Every (step 65536 65536) Prints initial answeredFirst := by
  have present : filled hello.val ≠ [] := by decide
  have terminated : 0 ∈ filled hello.val := by decide
  have ran : (run (step 65536 65536) initial answeredFirst).isSome := by
    simp [answeredFirst,run_cons,step,push,pull,initial,hello_message,hello_length,hello_again,present]
  obtain ⟨t,ran⟩ := Option.isSome_iff_exists.mp ran
  obtain ⟨free,shown⟩ := echo_exact ran
  refine ⟨t,ran,free.mpr ?_,shown.mpr ?_⟩
  · simp [answeredFirst,Every,Roomy,initial]
  · simp [answeredFirst,Every,Answered,step,push,pull,initial,hello_message,hello_length,hello_again,present,terminated]

theorem echo_wedges :
    (∃ actions t, run (step 65536 65536) initial actions = some t ∧
      actions.filterMap Action.line? = List.replicate 130 hello ∧ Wedged 65536 65536 t) ∧
    (run (step 65536 65536) initial printedFirst).isSome ∧ ¬ Every (step 65536 65536) Prints initial printedFirst := by
  refine ⟨?_,?_,?_⟩
  · apply session_wedges (by decide) ?_ (by simp [MAXLINE])
    intro input member
    rw [(List.mem_replicate.mp member).2]
    exact hello_message
  · simp [printedFirst,run_cons,step,push,initial,hello_message,hello_length]
  · simp [printedFirst,Every,Prints,step,push,initial,hello_message,hello_length]

end NetworkEx.FifoEcho
