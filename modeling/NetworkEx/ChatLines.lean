import NetworkEx.EpollRepresentation
import NetworkEx.StreamLines

namespace NetworkEx.ChatLines
open ByteStreams CText ChatSockets StreamLines TransitionRuns EpollChat EpollRepresentation

def EndsLine (b : UInt8) : Prop := b = byteOf '\n'

instance : DecidablePred EndsLine := fun b => inferInstanceAs (Decidable (b = byteOf '\n'))

-- What a step reads, with the descriptor it comes from.
def readOf (s : State) : Action → Option (Nat × Bytes)
  | .handle _ =>
    match s.pc with
    | .batch (.ptr addr :: _) =>
      (s.heap addr).bind fun user => (s.conns user.fd).bind fun c =>
        match c.read with
        | .data chunk => some (user.fd,chunk)
        | _ => none
    | _ => none
  | _ => none

def acceptedFd (s : State) : Action → Option Nat
  | .handle (some (fd,_)) =>
    match s.pc with
    | .batch (.listen :: _) => some fd
    | _ => none
  | _ => none

-- Noted beside a run: the line that each client has begun, and for every
-- client the lines of all that were completed while it was connected, and the
-- pieces that were read meanwhile.
structure Watch where
  part : Nat → Bytes
  due : Nat → List (Nat × Bytes)
  heard : Nat → List (Nat × Bytes)

def unwatched : Watch := ⟨fun _ => [],fun _ => [],fun _ => []⟩

def completed (w : Watch) (s : State) (action : Action) : List (Nat × Bytes) :=
  match readOf s action with
  | some (fd,chunk) => (collect EndsLine (w.part fd) chunk).1.map fun line => (fd,line)
  | none => []

def partAfter (w : Watch) (s : State) (action : Action) : Nat → Bytes :=
  match readOf s action with
  | some (fd,chunk) => Function.update w.part fd (collect EndsLine (w.part fd) chunk).2
  | none =>
    match acceptedFd s action with
    | some fd => Function.update w.part fd []
    | none => w.part

def told (s : State) (before : Nat → List (Nat × Bytes)) (news : List (Nat × Bytes)) (i : Nat) : List (Nat × Bytes) :=
  before i ++ if (s.conns i).isSome then news else []

def note (w : Watch) (s : State) (action : Action) : Watch :=
  ⟨partAfter w s action,told s w.due (completed w s action),told s w.heard (readOf s action).toList⟩

-- The 'user(fd) line' record.
def record (entry : Nat × Bytes) : Bytes := userName entry.1 ++ 32 :: entry.2

def text (written : Bytes) : Bytes := (cstring written).getD []

def received (s : State) (i : Nat) : List Bytes := (s.writes.filter fun write => write.1 = i).map fun write => text write.2

-- What the loop of send_msg has still to write to it.
def pending (s : State) (i : Nat) : List Bytes :=
  match s.pc with
  | .broadcast _ line k _ => if k ≤ i ∧ s.userFds i = 1 then [text line] else []
  | _ => []

def promised (s : State) (i : Nat) : List Bytes := received s i ++ pending s i

def Sends : Action → Prop
  | .pendingPeer _ event | .peer _ event => 0 ∉ event.bytes
  | _ => True

structure Textual (s : State) : Prop where
  backlog : ∀ c ∈ s.backlog, 0 ∉ c.unread
  conns : ∀ fd c, s.conns fd = some c → 0 ∉ c.unread

-- Each read brings exactly one whole line.
def WholeLine (s : State) (action : Action) : Prop := ∀ fd chunk, readOf s action = some (fd,chunk) → Line EndsLine chunk

theorem userName_clean (fd : Nat) : ∀ b ∈ userName fd, b ≠ 0 ∧ ¬ EndsLine b := by
  intro b member
  simp only [userName,List.mem_append] at member
  rcases member with (front | number) | back
  · have clean : ∀ b ∈ ascii "user(", b ≠ 0 ∧ ¬ EndsLine b := by decide +kernel
    exact clean b front
  · constructor
    · rintro rfl
      exact decimal_clean fd number
    · intro ends
      rw [show b = byteOf '\n' from ends] at number
      exact decimal_free (by decide) (by decide) fd number
  · have clean : ∀ b ∈ ascii ")", b ≠ 0 ∧ ¬ EndsLine b := by decide +kernel
    exact clean b back

theorem record_line (entry : Nat × Bytes) : Line EndsLine (record entry) ↔ Line EndsLine entry.2 := by
  have quiet : ∀ b ∈ userName entry.1 ++ [32], ¬ EndsLine b := by
    refine List.forall_mem_append.mpr ⟨?_,List.forall_mem_singleton.mpr (by decide)⟩
    intro b name
    exact (userName_clean entry.1 b name).2
  have front : record entry = (userName entry.1 ++ [32]) ++ entry.2 := by simp [record]
  rw [front]
  constructor
  · intro line
    by_cases present : entry.2 = []
    · obtain ⟨text,last,same,ended,_⟩ := line
      rw [present,List.append_nil] at same
      obtain ⟨_,lasts⟩ := List.append_inj' same rfl
      cases lasts
      exact absurd ended (by decide)
    · exact Line.of_append present line
  · exact Line.append quiet

theorem text_record (clean : 0 ∉ chunk) (printed : lineText (userName fd) chunk = some line) : text line = record (fd,chunk) := by
  simp only [lineText,Option.bind_eq_bind,Option.bind_eq_some_iff] at printed
  obtain ⟨msg,whole,printed,fits,same⟩ := printed
  obtain ⟨rfl,room⟩ := sprintf_parts fits
  cases same
  have message : msg = chunk := by
    rcases (received_isSome chunk).mp (by rw [whole]; rfl) with short | zero
    · exact Option.some.inj (whole.symm.trans (received_short short clean))
    · exact absurd zero clean
  have nameClean : 0 ∉ userName fd := fun zero => (userName_clean fd 0 zero).1 rfl
  have noZero : 0 ∉ userName fd ++ [32] ++ msg := by
    rw [message]
    simp [nameClean,clean]
  rw [text,cstring_cleared room noZero,message]
  simp [record]

theorem textual_update (valid : Textual s) (clean : 0 ∉ next.unread) :
    ∀ known c, Function.update s.conns fd (some next) known = some c → 0 ∉ c.unread := by
  intro known c found
  rcases update_found found with ⟨_,rfl⟩ | ⟨_,old⟩
  · exact clean
  · exact valid.conns known c old

theorem clean_peer {c next : Conn} (clean : 0 ∉ c.unread) (sent : 0 ∉ PeerEvent.bytes event) (moved : c.peer event = some next) :
    0 ∉ next.unread := by
  rw [peer_unread moved,List.mem_append,not_or]
  exact ⟨clean,sent⟩

theorem textual_preserved (valid : Textual s) (sends : Sends action) (stepped : Stepped listenfd s action next) :
    Textual next := by
  cases stepped with
  | connect live =>
    refine ⟨?_,valid.conns⟩
    exact List.forall_mem_append.mpr ⟨valid.backlog,List.forall_mem_singleton.mpr List.not_mem_nil⟩
  | pendingPeer live pending moved =>
    refine ⟨?_,valid.conns⟩
    intro c member
    rcases List.mem_or_eq_of_mem_set member with old | new
    · exact valid.backlog c old
    · rw [new]
      exact clean_peer (valid.backlog _ (List.mem_of_getElem? pending)) sends moved
  | peer live opened moved =>
    exact ⟨valid.backlog,textual_update valid (clean_peer (valid.conns _ _ opened) sends moved)⟩
  | accepts here first other free unused small =>
    have queued := valid.backlog
    rw [first] at queued
    exact ⟨fun c member => queued c (List.mem_cons_of_mem _ member),textual_update valid (queued _ List.mem_cons_self)⟩
  | overreads here block opened data unprinted =>
    exact ⟨valid.backlog,textual_update valid fun zero => valid.conns _ _ opened (List.mem_of_mem_drop zero)⟩
  | reads here block opened data printed =>
    exact ⟨valid.backlog,textual_update valid fun zero => valid.conns _ _ opened (List.mem_of_mem_drop zero)⟩
  | removes here block ended =>
    rename_i user accepted addr rest
    refine ⟨valid.backlog,?_⟩
    intro known c found
    exact valid.conns known c (clear_found found).2
  | _ => exact ⟨valid.backlog,valid.conns⟩

theorem readOf_reads (here : s.pc = .batch (.ptr addr :: rest)) (block : s.heap addr = some user)
    (opened : s.conns user.fd = some c) (data : c.read = .data chunk) :
    readOf s (.handle accepted) = some (user.fd,chunk) := by
  simp [readOf,here,block,opened,data]

theorem readOf_removes (here : s.pc = .batch (.ptr addr :: rest)) (block : s.heap addr = some user)
    (ended : s.conns user.fd = none ∨ ∃ c, s.conns user.fd = some c ∧ (c.read = .error ∨ c.read = .eof)) :
    readOf s (.handle accepted) = none := by
  rcases ended with gone | ⟨c,opened,failed | eof⟩
  · simp [readOf,here,block,gone]
  · simp [readOf,here,block,opened,failed]
  · simp [readOf,here,block,opened,eof]

theorem readOf_some (found : readOf s action = some (fd,chunk)) :
    ∃ c, s.conns fd = some c ∧ c.read = .data chunk := by
  unfold readOf at found
  split at found
  · split at found
    · simp only [Option.bind_eq_some_iff] at found
      obtain ⟨user,_,c,opened,data⟩ := found
      split at data
      · rename_i bytes result
        cases data
        exact ⟨c,opened,result⟩
      · cases data
    · cases found
  · cases found

theorem member_inside (owned : Owned s) (listed : s.userFds i = 1) : i < maxClients := by
  obtain ⟨addr,registered⟩ := owned.registered i ((owned.listed i).mp listed)
  obtain ⟨user,block,mine⟩ := owned.owned i addr registered
  rw [← mine]
  exact (owned.named addr user block).2

theorem stepped_live (stepped : Stepped listenfd s action next) : s.pc.live = true := by
  cases stepped <;> first | assumption | simp_all [Pc.live]

theorem received_write (s : State) (i k : Nat) (line : Bytes) (pc : Pc) :
    received {s with pc := pc,writes := s.writes ++ [(k,line)]} i = received s i ++ if k = i then [text line] else [] := by
  simp only [received,List.filter_append,List.map_append]
  by_cases equal : k = i
  · simp [equal]
  · simp [equal]

-- A read promises its record to everyone connected; no other step does, and
-- none takes a promise back.
theorem promised_step (owned : Owned s) (textual : Textual s) (stepped : Stepped listenfd s action next)
    (live : next.pc.live = true) (i : Nat) :
    promised next i = promised s i ++ (if (s.conns i).isSome then (readOf s action).toList else []).map record := by
  cases stepped with
  | connect _ => simp [readOf,promised,received,pending]
  | pendingPeer _ waiting moved => simp [readOf,promised,received,pending]
  | peer _ opened moved => simp [readOf,promised,received,pending]
  | epollWait waiting single events => simp [readOf,promised,received,pending,waiting]
  | acceptFails here => cases live
  | overindexes here large => cases live
  | accepts here first other free unused small => simp [readOf,promised,received,pending,here]
  | usesFreed here freed => cases live
  | overreads here block opened data unprinted => cases live
  | reads here block opened data printed =>
    rename_i user c chunk line accepted addr rest
    have named := (owned.named addr user block).1
    rw [named] at printed
    have clean : 0 ∉ chunk := by
      rw [(read_data data).2.1]
      exact fun zero => textual.conns _ _ opened (List.mem_of_mem_take zero)
    have spoken := text_record clean printed
    rw [readOf_reads here block opened data]
    have listed := owned.listed i
    by_cases open_ : s.conns i = none
    · have silent : s.userFds i ≠ 1 := fun member => listed.mp member open_
      simp [promised,received,pending,here,silent,open_]
    · have member := listed.mpr open_
      simp [promised,received,pending,here,member,spoken,Option.isSome_iff_ne_none,open_]
  | removes here block ended =>
    rw [readOf_removes here block ended]
    simp [promised,received,pending,removeClient,here]
  | skips looping inside silent =>
    rename_i k addr line rest
    have unlisted : s.userFds k ≠ 1 := by
      rcases silent with silent | gone
      · exact silent
      · exact fun member => (owned.listed k).mp member gone
    have same : (k+1 ≤ i ∧ s.userFds i = 1) ↔ (k ≤ i ∧ s.userFds i = 1) := by
      constructor
      · intro both
        exact ⟨by omega,both.2⟩
      · intro both
        obtain ⟨from_,member⟩ := both
        have different : k ≠ i := fun equal => unlisted (equal ▸ member)
        exact ⟨by omega,member⟩
    simp only [promised,received,pending,looping,readOf,same,Option.toList_none,ite_self,List.map_nil,List.append_nil]
  | breaks looping inside member opened broken => cases live
  | writes looping inside member opened whole =>
    rename_i k c addr line rest
    simp only [promised,received_write,pending,looping,readOf,Option.toList_none,ite_self,List.map_nil,List.append_nil]
    by_cases equal : k = i
    · subst equal
      simp [member]
    · have same : k+1 ≤ i ↔ k ≤ i := by omega
      simp [equal,same]
  | finishes looping outside =>
    rename_i k rest addr line
    have unlisted : ¬ (k ≤ i ∧ s.userFds i = 1) := by
      intro both
      obtain ⟨after,member⟩ := both
      exact outside (Nat.lt_of_le_of_lt after (member_inside owned member))
    simp [promised,received,pending,looping,readOf,unlisted]

theorem completed_lines (quiet : ∀ fd, ∀ b ∈ w.part fd, ¬ EndsLine b) (s : State) (action : Action) :
    (∀ entry ∈ completed w s action, Line EndsLine entry.2) ∧ ∀ fd, ∀ b ∈ partAfter w s action fd, ¬ EndsLine b := by
  unfold completed partAfter
  cases read : readOf s action with
  | none =>
    refine ⟨by simp,?_⟩
    cases acceptedFd s action with
    | none => exact quiet
    | some taken =>
      intro fd
      by_cases equal : fd = taken
      · subst equal
        simp
      · simpa [Function.update_of_ne equal] using quiet fd
  | some entry =>
    obtain ⟨from_,chunk⟩ := entry
    have lines := collect_lines chunk (quiet from_)
    constructor
    · intro entry member
      obtain ⟨line,complete,rfl⟩ := List.mem_map.mp member
      exact lines.1 line complete
    · intro fd
      by_cases equal : fd = from_
      · subst equal
        simpa using lines.2
      · simpa [Function.update_of_ne equal] using quiet fd

-- What every run keeps true of its notes: each client has been promised what
-- was heard while it was connected, and only whole lines are due to it.
structure Noted (p : State × Watch) : Prop where
  owned : Owned p.1
  textual : Textual p.1
  heard : p.1.pc.live = true → ∀ i, promised p.1 i = (p.2.heard i).map record
  lines : ∀ i, ∀ entry ∈ p.2.due i, Line EndsLine entry.2
  quiet : ∀ fd, ∀ b ∈ p.2.part fd, ¬ EndsLine b

theorem initial_textual : Textual initial := ⟨by simp [initial],by simp [initial]⟩

theorem initial_noted : Noted (initial,unwatched) :=
  ⟨initial_owned,initial_textual,by simp [promised,received,pending,initial,unwatched],by simp [unwatched],by simp [unwatched]⟩

theorem noted_preserved (noted : Noted before) (sends : Sends action)
    (moved : watched (step listenfd) note before action = some after) : Noted after := by
  obtain ⟨next,w⟩ := after
  obtain ⟨ran,rfl⟩ := watched_some moved
  have stepped := step_sound ran
  obtain ⟨whole,rest⟩ := completed_lines noted.quiet before.1 action
  refine ⟨owned_preserved noted.owned stepped,textual_preserved noted.textual sends stepped,?_,?_,rest⟩
  · intro live i
    rw [promised_step noted.owned noted.textual stepped live i,noted.heard (stepped_live stepped) i]
    simp only [note,told,List.map_append]
  · intro i entry member
    rcases List.mem_append.mp member with old | new
    · exact noted.lines i entry old
    · apply whole entry
      split at new
      · exact new
      · cases new

theorem run_noted (sends : ∀ action ∈ actions, Sends action)
    (ran : run (watched (step listenfd) note) (initial,unwatched) actions = some p) : Noted p := by
  have keeps : ∀ before action after, Noted before → Sends action →
      watched (step listenfd) note before action = some after → Noted after :=
    fun before action after noted sent moved => noted_preserved noted sent moved
  exact run_allowed keeps initial_noted sends ran

structure Even (w : Watch) : Prop where
  part : ∀ fd, w.part fd = []
  due : w.due = w.heard

theorem even_preserved (even : Even w) (whole : WholeLine s action) : Even (note w s action) := by
  cases read : readOf s action with
  | none =>
    have completes : completed w s action = [] := by simp [completed,read]
    refine ⟨?_,by simp [note,completes,read,even.due]⟩
    intro fd
    simp only [note,partAfter,read]
    cases acceptedFd s action with
    | none => exact even.part fd
    | some taken =>
      by_cases equal : fd = taken
      · subst equal
        simp
      · simpa [Function.update_of_ne equal] using even.part fd
  | some entry =>
    obtain ⟨from_,chunk⟩ := entry
    have one := collect_line (whole from_ chunk read)
    have completes : completed w s action = [(from_,chunk)] := by simp [completed,read,even.part from_,one]
    refine ⟨?_,by simp [note,completes,read,even.due]⟩
    intro fd
    simp only [note,partAfter,read,even.part from_,one]
    by_cases equal : fd = from_
    · subst equal
      simp
    · simpa [Function.update_of_ne equal] using even.part fd

theorem heard_grows (ran : run (watched (step listenfd) note) before actions = some after) (entry : Nat × Bytes) (i : Nat)
    (member : entry ∈ before.2.heard i) : entry ∈ after.2.heard i := by
  let Heard (p : State × Watch) : Prop := entry ∈ p.2.heard i
  have keeps : ∀ p action q, Heard p → watched (step listenfd) note p action = some q → Heard q := by
    intro p action q here moved
    show entry ∈ q.2.heard i
    rw [(watched_some moved).2]
    exact List.mem_append_left _ here
  have start : Heard before := member
  have ends : Heard after := run_invariant keeps start ran
  exact ends

theorem every_whole (ran : run (watched (step listenfd) note) (s,w) actions = some after)
    (lines : ∀ i, ∀ entry ∈ after.2.heard i, Line EndsLine entry.2) : Every (step listenfd) WholeLine s actions := by
  induction actions generalizing s w with
  | nil => trivial
  | cons action rest ih =>
    obtain ⟨⟨next,between⟩,moved,onward⟩ := run_cons_some ran
    obtain ⟨stepped,rfl⟩ := watched_some moved
    constructor
    · intro fd chunk read
      obtain ⟨c,opened,_⟩ := readOf_some read
      apply lines fd (fd,chunk)
      apply heard_grows onward
      simp [note,told,opened,read]
    · intro other same
      cases stepped.symm.trans same
      exact ih onward

theorem received_heard (noted : Noted (s,w)) (between : s.pc = .batch rest) (i : Nat) : received s i = (w.heard i).map record := by
  have promises := noted.heard (by simp [between,Pc.live]) i
  simpa [promised,pending,between] using promises

theorem lines_exact (sends : ∀ action ∈ actions, Sends action)
    (ran : run (watched (step listenfd) note) (initial,unwatched) actions = some (s,w)) (between : s.pc = .batch rest) :
    (∀ i, received s i = (w.due i).map record) ↔ Every (step listenfd) WholeLine initial actions := by
  have noted := run_noted sends ran
  constructor
  · intro delivered
    apply every_whole ran
    intro i entry member
    have written : record entry ∈ (w.due i).map record := by
      rw [← delivered i,received_heard noted between i]
      exact List.mem_map_of_mem member
    obtain ⟨line,complete,same⟩ := List.mem_map.mp written
    rw [← record_line,← same,record_line]
    exact noted.lines i line complete
  · intro whole i
    let Balanced (p : State × Watch) : Prop := Even p.2
    have keeps : ∀ before action after, Balanced before → WholeLine before.1 action →
        watched (step listenfd) note before action = some after → Balanced after := by
      intro before action after even line moved
      show Even after.2
      rw [(watched_some moved).2]
      exact even_preserved even line
    have start : Balanced (initial,unwatched) := ⟨fun _ => rfl,rfl⟩
    have even : Balanced (s,w) := run_preserves keeps start (watched_every.mpr whole) ran
    rw [received_heard noted between i,even.due]

-- Two ways of delivery in which each client is due the same lines in the same
-- order. Each read goes out as one record of its own, whatever it brings.
theorem same_lines_exact (sends : ∀ action ∈ actions, Sends action) (others : ∀ action ∈ actions', Sends action)
    (ran : run (watched (step listenfd) note) (initial,unwatched) actions = some (s,w))
    (ran' : run (watched (step listenfd) note) (initial,unwatched) actions' = some (s',w'))
    (between : s.pc = .batch rest) (between' : s'.pc = .batch rest') (order : w.due = w'.due) :
    (∀ i, received s i = (w.heard i).map record ∧ received s' i = (w'.heard i).map record) ∧
    ((∀ i, received s i = received s' i ∧ received s i = (w.due i).map record) ↔
      Every (step listenfd) WholeLine initial actions ∧ Every (step listenfd) WholeLine initial actions') := by
  have noted := run_noted sends ran
  have noted' := run_noted others ran'
  have exactly := lines_exact sends ran between
  have exactly' := lines_exact others ran' between'
  refine ⟨fun i => ⟨received_heard noted between i,received_heard noted' between' i⟩,?_⟩
  rw [← exactly,← exactly',← order]
  constructor
  · intro same
    exact ⟨fun i => (same i).2,fun i => (same i).1.symm.trans (same i).2⟩
  · intro ⟨first,second⟩ i
    exact ⟨(first i).trans (second i).symm,first i⟩

theorem note_write (w : Watch) (s : State) : note w s .write = w := by
  simp only [note,completed,partAfter,readOf,acceptedFd,Option.toList_none]
  congr 1 <;> funext i <;> simp [told]

theorem writes_unnoticed (n : Nat) (p : State × Watch) :
    run (watched (step listenfd) note) p (List.replicate n .write) =
      (run (step listenfd) p.1 (List.replicate n .write)).map fun s => (s,p.2) := by
  induction n generalizing p with
  | zero => rfl
  | succ n ih =>
    rw [List.replicate_succ,run_cons,run_cons,watched]
    cases step listenfd p.1 .write with
    | none => rfl
    | some next => exact (ih _).trans (by rw [note_write]; rfl)

-- A number that accept never gives is due nothing.
def Elsewhere (i : Nat) : Action → Prop
  | .handle (some (fd,_)) => fd ≠ i
  | _ => True

theorem absent_stays (absent : s.conns i = none) (elsewhere : Elsewhere i action)
    (stepped : Stepped listenfd s action next) : next.conns i = none := by
  have apart : ∀ {fd : Nat} {c : Conn} {after}, s.conns fd = some c → Function.update s.conns fd (some after) i = none := by
    intro fd c after opened
    have different : i ≠ fd := by
      intro equal
      rw [← equal,absent] at opened
      cases opened
    rw [Function.update_of_ne different]
    exact absent
  cases stepped with
  | peer live opened moved => exact apart opened
  | accepts here first other free unused small =>
    exact (Function.update_of_ne (Ne.symm elsewhere) _ _).trans absent
  | overreads here block opened data unprinted => exact apart opened
  | reads here block opened data printed => exact apart opened
  | removes here block ended =>
    rename_i user accepted addr rest
    by_cases equal : i = user.fd
    · simp [removeClient,equal]
    · simpa [removeClient,Function.update_of_ne equal] using absent
  | _ => exact absent

theorem absent_due (elsewhere : ∀ action ∈ actions, Elsewhere i action)
    (ran : run (watched (step listenfd) note) (initial,unwatched) actions = some p) : p.2.due i = [] := by
  let Absent (s : State) (w : Watch) : Prop := s.conns i = none ∧ w.due i = []
  have keeps : ∀ s w action next, Absent s w → Elsewhere i action → step listenfd s action = some next →
      Absent next (note w s action) := by
    intro s w action next absent away stepped
    obtain ⟨gone,nothing⟩ := absent
    refine ⟨absent_stays gone away (step_sound stepped),?_⟩
    simp [note,told,gone,nothing]
  have start : Absent initial unwatched := ⟨rfl,rfl⟩
  have ends : Absent p.1 p.2 := watched_preserves keeps start elsewhere ran
  exact ends.2

def joins : List Action := [.connect,.epollWait [none],.handle (some (5,100))]
def brings (piece : Bytes) : List Action := [.peer 5 (.data piece),.epollWait [some 5],.handle none]
def sendMsg : List Action := List.replicate (maxClients + 1) .write

def inOne : List Action := joins ++ brings (ascii "ab\n") ++ sendMsg
def inTwo : List Action := joins ++ brings (ascii "a") ++ sendMsg ++ brings (ascii "b\n") ++ sendMsg

structure Alone (s : State) : Prop where
  table : s.userFds = Function.update (fun _ => -1) 5 1
  opened : ∃ c, s.conns 5 = some c ∧ c.failed = false

theorem alone_five (alone : Alone s) (member : s.userFds fd = 1) : fd = 5 := by
  by_contra other
  rw [alone.table,Function.update_of_ne other] at member
  cases member

theorem alone_sent (listenfd : Nat) (alone : Alone s) (looping : s.pc = .broadcast addr line 0 rest) (w : Watch) :
    run (watched (step listenfd) note) (s,w) sendMsg =
      some ({s with pc := .batch rest,writes := s.writes ++ [(5,line)]},w) := by
  have whole : ∀ fd c, s.userFds fd = 1 → s.conns fd = some c → c.failed = false := by
    intro fd c member found
    obtain ⟨d,opened,well⟩ := alone.opened
    rw [alone_five alone member,opened] at found
    cases found
    exact well
  have ran : run (step listenfd) s (List.replicate (maxClients + 1) .write) = _ :=
    sendMsg_run whole looping (Nat.zero_add maxClients)
  have only : addressees (fun fd => s.userFds fd = 1) s.conns 0 maxClients = [5] := by
    obtain ⟨c,opened,_⟩ := alone.opened
    apply addressees_alone
    · intro fd member
      exact alone_five alone (of_decide_eq_true member)
    · simp [alone.table]
    · simp [opened]
    · decide
  rw [sendMsg,writes_unnoticed,ran,only]
  rfl

def lineOf (data : String) : Bytes := overlay (ascii "user(5) " ++ ascii data) (List.replicate (MAXLINE + 24) 0)

theorem one_read : ∃ p, run (watched (step 3) note) (initial,unwatched) (joins ++ brings (ascii "ab\n")) = some p ∧
    p.1.pc = .broadcast 100 (lineOf "ab\n") 0 [] ∧ Alone p.1 ∧ p.1.writes = [] ∧ p.2.due 5 = [(5,ascii "ab\n")] :=
  ⟨_,rfl,rfl,⟨rfl,_,rfl,rfl⟩,rfl,rfl⟩

theorem two_reads : ∃ p q, run (watched (step 3) note) (initial,unwatched) (joins ++ brings (ascii "a")) = some p ∧
    p.1.pc = .broadcast 100 (lineOf "a") 0 [] ∧ Alone p.1 ∧ p.1.writes = [] ∧
    run (watched (step 3) note) ({p.1 with pc := .batch [],writes := [(5,lineOf "a")]},p.2) (brings (ascii "b\n")) = some q ∧
    q.1.pc = .broadcast 100 (lineOf "b\n") 0 [] ∧ Alone q.1 ∧ q.1.writes = [(5,lineOf "a")] ∧
    q.2.due 5 = [(5,ascii "ab\n")] :=
  ⟨_,_,rfl,rfl,⟨rfl,_,rfl,rfl⟩,rfl,rfl,rfl,⟨rfl,_,rfl,rfl⟩,rfl,rfl⟩

theorem text_lines : text (lineOf "ab\n") = ascii "user(5) ab\n" ∧ text (lineOf "a") = ascii "user(5) a" ∧
    text (lineOf "b\n") = ascii "user(5) b\n" := ⟨rfl,rfl,rfl⟩

theorem inOne_ends : (run (watched (step 3) note) (initial,unwatched) inOne).map (fun p => (p.1.pc,p.2.due 5,received p.1 5)) =
    some (.batch [],[(5,ascii "ab\n")],[ascii "user(5) ab\n"]) := by
  obtain ⟨p,ran,looping,alone,nothing,due⟩ := one_read
  have sent := alone_sent 3 alone looping p.2
  rw [inOne,run_append,ran,Option.bind_some,sent]
  simp [received,nothing,due,text_lines]

theorem inTwo_ends : (run (watched (step 3) note) (initial,unwatched) inTwo).map (fun p => (p.1.pc,p.2.due 5,received p.1 5)) =
    some (.batch [],[(5,ascii "ab\n")],[ascii "user(5) a",ascii "user(5) b\n"]) := by
  obtain ⟨p,q,ran,looping,alone,nothing,ran',looping',alone',written,due⟩ := two_reads
  have sent := alone_sent 3 alone looping p.2
  have sent' := alone_sent 3 alone' looping' q.2
  rw [inTwo,run_append,run_append,run_append,ran,Option.bind_some,sent,Option.bind_some,nothing,List.nil_append,ran',
    Option.bind_some,sent']
  simp [received,written,due,text_lines]

theorem each_of_pieces {good : Action → Prop} (joined : ∀ action ∈ joins, good action)
    (brought : ∀ piece, 0 ∉ piece → ∀ action ∈ brings piece, good action) (write : good .write) :
    (∀ action ∈ inOne, good action) ∧ ∀ action ∈ inTwo, good action := by
  have written : ∀ action ∈ sendMsg, good action := by
    intro action member
    rw [List.eq_of_mem_replicate member]
    exact write
  constructor
  · intro action member
    simp only [inOne,List.mem_append] at member
    rcases member with (here | here) | here
    · exact joined action here
    · exact brought (ascii "ab\n") (by decide) action here
    · exact written action here
  · intro action member
    simp only [inTwo,List.mem_append] at member
    rcases member with (((here | here) | here) | here) | here
    · exact joined action here
    · exact brought (ascii "a") (by decide) action here
    · exact written action here
    · exact brought (ascii "b\n") (by decide) action here
    · exact written action here

theorem pieces_sent : (∀ action ∈ inOne, Sends action) ∧ ∀ action ∈ inTwo, Sends action := by
  apply each_of_pieces
  · simp [joins,Sends]
  · intro piece clean
    simpa [brings,Sends,PeerEvent.bytes] using clean
  · trivial

theorem pieces_elsewhere (other : i ≠ 5) : (∀ action ∈ inOne, Elsewhere i action) ∧ ∀ action ∈ inTwo, Elsewhere i action := by
  apply each_of_pieces
  · simpa [joins,Elsewhere] using Ne.symm other
  · simp [brings,Elsewhere]
  · trivial

theorem pieces_run :
    ∃ s w s' w', run (watched (step 3) note) (initial,unwatched) inOne = some (s,w) ∧
      run (watched (step 3) note) (initial,unwatched) inTwo = some (s',w') ∧
      s.pc = .batch [] ∧ s'.pc = .batch [] ∧ w.due = w'.due ∧ w.due 5 = [(5,ascii "ab\n")] ∧
      received s 5 = [ascii "user(5) ab\n"] ∧ received s' 5 = [ascii "user(5) a",ascii "user(5) b\n"] := by
  obtain ⟨⟨s,w⟩,ran,ends⟩ := Option.map_eq_some_iff.mp inOne_ends
  obtain ⟨⟨s',w'⟩,ran',ends'⟩ := Option.map_eq_some_iff.mp inTwo_ends
  simp only [Prod.mk.injEq] at ends ends'
  obtain ⟨between,due,written⟩ := ends
  obtain ⟨between',due',written'⟩ := ends'
  refine ⟨s,w,s',w',ran,ran',between,between',?_,due,written,written'⟩
  funext i
  by_cases equal : i = 5
  · rw [equal,due,due']
  · exact (absent_due (pieces_elsewhere equal).1 ran).trans (absent_due (pieces_elsewhere equal).2 ran').symm

theorem segments_break_records :
    ∃ s w s' w', run (watched (step 3) note) (initial,unwatched) inOne = some (s,w) ∧
      run (watched (step 3) note) (initial,unwatched) inTwo = some (s',w') ∧
      s.pc = .batch [] ∧ s'.pc = .batch [] ∧ w.due = w'.due ∧ w.due 5 = [(5,ascii "ab\n")] ∧
      received s 5 = [ascii "user(5) ab\n"] ∧ received s' 5 = [ascii "user(5) a",ascii "user(5) b\n"] ∧
      received s 5 ≠ received s' 5 := by
  obtain ⟨s,w,s',w',ran,ran',between,between',order,due,written,written'⟩ := pieces_run
  refine ⟨s,w,s',w',ran,ran',between,between',order,due,written,written',?_⟩
  rw [written,written']
  decide

theorem same_lines_exact_pieces :
    ∃ s w s' w', run (watched (step 3) note) (initial,unwatched) inOne = some (s,w) ∧
      run (watched (step 3) note) (initial,unwatched) inTwo = some (s',w') ∧
      ((∀ i, received s i = received s' i ∧ received s i = (w.due i).map record) ↔
        Every (step 3) WholeLine initial inOne ∧ Every (step 3) WholeLine initial inTwo) := by
  obtain ⟨s,w,s',w',ran,ran',between,between',order,_⟩ := pieces_run
  exact ⟨s,w,s',w',ran,ran',(same_lines_exact pieces_sent.1 pieces_sent.2 ran ran' between between' order).2⟩

end NetworkEx.ChatLines
