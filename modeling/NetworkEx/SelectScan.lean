import NetworkEx.SelectEcho

namespace NetworkEx.SelectScan
open ByteStreams CText ChatSockets TransitionRuns SelectEcho

def Open (s : State) (i : Nat) : Prop := (s.files i).isSome

def Below : Action → Prop
  | .accept fd => fd < FD_SETSIZE
  | _ => True

structure Listed (listenFd : Nat) (s : State) : Prop where
  inside : s.pc ≠ .wild
  listener : listenFd ∈ s.readfds
  clients : ∀ i, Open s i ↔ i ∈ s.readfds ∧ i ≠ listenFd
  within : ∀ i ∈ s.readfds, i ≤ s.maxfd
  table : s.maxfd < FD_SETSIZE

theorem open_added {s next : State} {fd k : Nat} (added : next.files = Function.update s.files fd (some k)) :
    Open next i ↔ i = fd ∨ Open s i := by
  rw [Open,added]
  exact isSome_update

theorem open_leave : Open (leave s fd) i ↔ i ≠ fd ∧ Open s i := isSome_clear

theorem initial_listed (low : listenFd < FD_SETSIZE) : Listed listenFd (initial listenFd) :=
  ⟨by simp [initial],by simp [initial],by simp [initial,Open],by simp [initial],low⟩

theorem leave_listed (listed : Listed listenFd s) (client : i ≠ listenFd) : Listed listenFd (leave s i) := by
  obtain ⟨inside,listener,clients,within,table⟩ := listed
  refine ⟨inside,Finset.mem_erase.mpr ⟨client.symm,listener⟩,?_,?_,table⟩
  · intro j
    rw [open_leave,clients j]
    simp [leave,and_assoc]
  · intro j member
    exact within j (Finset.mem_of_mem_erase member)

theorem countdown_listed (listed : Listed listenFd s) (i : Nat) : Listed listenFd (countdown s i) := by
  obtain ⟨inside,listener,clients,within,table⟩ := listed
  unfold countdown
  dsimp only
  split <;> exact ⟨by simp,listener,clients,within,table⟩

-- Descriptor i was read between two states: its connection has lost what one read
-- brings, or the read brought nothing and the descriptor is closed.
def took (s next : State) (i : Nat) : Bool :=
  let closed := (s.files i).isSome && (next.files i).isNone
  match behind s i with
  | none => closed
  | some (k,c) =>
    match c.read with
    | .data _ => decide (next.conns k = some c.afterRead)
    | _ => closed

-- The history of a pass: the descriptors read in it, latest first.
def readBy (s next : State) : List Nat :=
  match s.pc with
  | .scan i => if took s next i then [i] else []
  | _ => []

def note (reads : List Nat) (s : State) : Action → List Nat
  | .select _ => []
  | .turn beyond writen =>
    match s.pc with
    | .scan i => ((turn s i beyond writen).map (readBy s)).getD [] ++ reads
    | _ => reads
  | _ => reads

-- `reached` and `count` carry the pass: the ready descriptors below the index
-- are those read, and fd_num is how many of them are left.
structure Scanned (listenFd : Nat) (s : State) (reads : List Nat) : Prop where
  order : reads.Pairwise (· > ·)
  clients : ∀ i, s.pc = .scan i → listenFd ∉ s.allfds
  within : ∀ i, s.pc = .scan i → ∀ j ∈ s.allfds, j ≤ s.maxfd
  later : ∀ i, s.pc = .scan i → ∀ j ∈ s.allfds, i ≤ j → j ∈ s.readfds
  reached : ∀ i, s.pc = .scan i → ∀ j, j ∈ reads ↔ j ∈ s.allfds ∧ j < i
  count : ∀ i, s.pc = .scan i → s.fdNum + reads.length = s.allfds.card

theorem initial_scanned (listenFd : Nat) : Scanned listenFd (initial listenFd) [] :=
  ⟨.nil,by simp [initial],by simp [initial],by simp [initial],by simp [initial],by simp [initial]⟩

theorem read_shorter (data : Conn.read c = .data chunk) : c.afterRead ≠ c := by
  intro same
  obtain ⟨some_,front,whole⟩ := read_data data
  have length := congrArg List.length whole
  rw [same,List.length_append,front,List.length_take] at length
  have unread := List.length_pos_iff.mpr some_
  have room : 0 < ChatSockets.MAXLINE := by decide
  omega

theorem took_same (files : next.files i = s.files i) (conns : next.conns = s.conns) : took s next i = false := by
  have open_ : ((s.files i).isSome && (s.files i).isNone) = false := by cases s.files i <;> rfl
  simp only [took,files,conns,open_]
  split
  · rfl
  · rename_i k c here
    split
    · rename_i chunk data
      rw [(behind_iff.mp here).2]
      simpa using fun same => read_shorter data same.symm
    · rfl

theorem took_closed (opened : Open s i) (files : next.files i = none)
    (ended : behind s i = none ∨ ∃ k c, behind s i = some (k,c) ∧ (c.read = .error ∨ c.read = .eof)) : took s next i = true := by
  have closed : ((s.files i).isSome && (next.files i).isNone) = true := by rw [opened,files]; rfl
  rcases ended with gone | ⟨k,c,here,failed | eof⟩
  · simp only [took,gone,closed]
  · simp only [took,here,failed,closed]
  · simp only [took,here,eof,closed]

theorem took_data (here : behind s i = some (k,c)) (data : c.read = .data chunk) (conns : next.conns k = some c.afterRead) :
    took s next i = true := by
  simp only [took,here,data,conns,decide_true]

theorem countdown_files (s : State) (i : Nat) : (countdown s i).files = s.files := by
  unfold countdown
  dsimp only
  split <;> rfl

theorem countdown_conns (s : State) (i : Nat) : (countdown s i).conns = s.conns := by
  unfold countdown
  dsimp only
  split <;> rfl

def due (s : State) (i : Nat) : List Nat := if i ≤ s.maxfd ∧ i ∈ s.allfds then [i] else []

theorem due_ready (inside : i ≤ s.maxfd) (ready : i ∈ s.allfds) : due s i = [i] := if_pos ⟨inside,ready⟩

theorem due_quiet (quiet : ¬ (i ≤ s.maxfd ∧ i ∈ s.allfds)) : due s i = [] := if_neg quiet

theorem ready_open (listed : Listed listenFd s) (scanned : Scanned listenFd s reads) (scanning : s.pc = .scan i) (ready : i ∈ s.allfds) :
    Open s i := by
  refine (listed.clients i).mpr ⟨scanned.later i scanning i ready (Nat.le_refl i),?_⟩
  intro same
  exact scanned.clients i scanning (same ▸ ready)

theorem readBy_turn (listed : Listed listenFd s) (scanned : Scanned listenFd s reads) (scanning : s.pc = .scan i)
    (stepped : Stepped listenFd s (.turn beyond writen) next) : readBy s next = due s i := by
  have opened := ready_open listed scanned scanning
  simp only [readBy,scanning]
  cases stepped with
  | skips here low silent =>
    cases scanning.symm.trans here
    rw [took_same,due_quiet fun both => silent both.2]
    · rfl
    · rfl
    · rfl
  | finishes here outside =>
    cases scanning.symm.trans here
    rw [took_same,due_quiet fun both => outside both.1]
    · rfl
    · rfl
    · rfl
  | leaves here low ready ended =>
    cases scanning.symm.trans here
    have left : (countdown (leave s i) i).files i = none := by rw [countdown_files]; exact Function.update_self ..
    rw [took_closed (opened ready) left ended,due_ready low ready]
    rfl
  | quits here low ready found data quit | breaks here low ready found data stays broken =>
    cases scanning.symm.trans here
    rw [took_data found data (Function.update_self ..),due_ready low ready]
    rfl
  | echoes here low ready found data stays whole =>
    cases scanning.symm.trans here
    rw [took_data found data,due_ready low ready]
    · rfl
    · rw [countdown_conns]
      exact Function.update_self ..

theorem reads_onward (scanned : Scanned listenFd s reads) (scanning : s.pc = .scan i) :
    (due s i ++ reads).Pairwise (· > ·) ∧ ∀ j, j ∈ due s i ++ reads ↔ j ∈ s.allfds ∧ j < i + 1 := by
  have reached := scanned.reached i scanning
  by_cases ready : i ≤ s.maxfd ∧ i ∈ s.allfds
  · rw [due_ready ready.1 ready.2,List.singleton_append]
    refine ⟨List.pairwise_cons.mpr ⟨fun j member => ((reached j).mp member).2,scanned.order⟩,?_⟩
    intro j
    rw [List.mem_cons,reached j,Nat.lt_succ_iff_lt_or_eq]
    constructor
    · rintro (rfl | ⟨member,before⟩)
      · exact ⟨ready.2,.inr rfl⟩
      · exact ⟨member,.inl before⟩
    · rintro ⟨member,before | rfl⟩
      · exact .inr ⟨member,before⟩
      · exact .inl rfl
  · rw [due_quiet ready,List.nil_append]
    refine ⟨scanned.order,fun j => ?_⟩
    rw [reached j]
    refine and_congr_right fun member => ⟨Nat.lt_succ_of_lt,fun before => ?_⟩
    rcases Nat.lt_succ_iff_lt_or_eq.mp before with before | rfl
    · exact before
    · exact absurd ⟨scanned.within j scanning j member,member⟩ ready

theorem left_ready (scanned : Scanned listenFd s reads) (scanning : s.pc = .scan i) (inside : i ≤ s.maxfd)
    (ready : i ∈ s.allfds) : 0 < s.fdNum := by
  obtain ⟨order,member⟩ := reads_onward scanned scanning
  rw [due_ready inside ready,List.singleton_append] at order member
  have once : (i :: reads).Nodup := order.imp fun greater => Nat.ne_of_gt greater
  have subset : (i :: reads).toFinset ⊆ s.allfds := by
    intro j among
    exact ((member j).mp (List.mem_toFinset.mp among)).1
  have bound := Finset.card_le_card subset
  rw [List.toFinset_card_of_nodup once,List.length_cons] at bound
  have count := scanned.count i scanning
  omega

theorem countdown_onward (scanned : Scanned listenFd s reads) (scanning : s.pc = .scan i) (inside : i ≤ s.maxfd)
    (ready : i ∈ s.allfds) (same : t.fdNum = s.fdNum) :
    countdown t i = {t with pc := .scan (i+1),fdNum := s.fdNum - 1} := by
  have left := left_ready scanned scanning inside ready
  have stays : ¬ s.fdNum - 1 < -0 := by omega
  simp only [countdown,same,if_neg stays]

theorem listed_turn (listed : Listed listenFd s) (scanned : Scanned listenFd s reads)
    (stepped : Stepped listenFd s (.turn beyond writen) next) : Listed listenFd next := by
  obtain ⟨inside,listener,clients,within,table⟩ := listed
  have listed : Listed listenFd s := ⟨inside,listener,clients,within,table⟩
  have client : ∀ {i}, s.pc = .scan i → i ∈ s.allfds → i ≠ listenFd := by
    intro i scanning ready same
    exact scanned.clients i scanning (same ▸ ready)
  cases stepped with
  | skips | finishes | breaks => exact ⟨by simp,listener,clients,within,table⟩
  | leaves scanning low ready ended => exact countdown_listed (leave_listed listed (client scanning ready)) _
  | quits scanning low ready opened data quit =>
    have left := leave_listed listed (client scanning ready)
    exact ⟨by simp,left.listener,left.clients,left.within,left.table⟩
  | echoes scanning low ready opened data stays whole =>
    apply countdown_listed
    exact ⟨inside,listener,clients,within,table⟩

theorem listed_preserved (listed : Listed listenFd s) (scanned : Scanned listenFd s reads) (below : Below action)
    (stepped : Stepped listenFd s action next) : Listed listenFd next := by
  obtain ⟨inside,listener,clients,within,table⟩ := listed
  have listed : Listed listenFd s := ⟨inside,listener,clients,within,table⟩
  cases action with
  | connect | peer => cases stepped; exact ⟨inside,listener,clients,within,table⟩
  | select ready => cases stepped <;> exact ⟨by simp,listener,clients,within,table⟩
  | accept fd =>
    cases stepped with
    | overindexes waiting first other free large => exact absurd below large
    | accepts waiting first other free small =>
      rename_i k later
      refine ⟨by simp,Finset.mem_insert_of_mem listener,?_,?_,Nat.max_lt.mpr ⟨table,small⟩⟩
      · intro i
        rw [@open_added i s _ fd k rfl,clients i,Finset.mem_insert]
        constructor
        · rintro (rfl | ⟨member,client⟩)
          · exact ⟨.inl rfl,other⟩
          · exact ⟨.inr member,client⟩
        · rintro ⟨rfl | member,client⟩
          · exact .inl rfl
          · exact .inr ⟨member,client⟩
      · intro i member
        rcases Finset.mem_insert.mp member with rfl | old
        · exact Nat.le_max_right _ _
        · exact Nat.le_trans (within i old) (Nat.le_max_left _ _)
  | turn beyond writen => exact listed_turn listed scanned stepped

structure Onward (s next : State) (i : Nat) (read : List Nat) : Prop where
  pc : next.pc = .scan (i+1)
  ready : next.allfds = s.allfds
  maxfd : next.maxfd = s.maxfd
  kept : ∀ j ∈ s.readfds, j ≠ i → j ∈ next.readfds
  count : next.fdNum + read.length = s.fdNum

-- Where a pass goes on after a turn: one descriptor further, with the counter
-- lower by one exactly if that descriptor was read.
theorem turn_onward (scanned : Scanned listenFd s reads) (scanning : s.pc = .scan i)
    (stepped : Stepped listenFd s (.turn beyond writen) next) (again : next.pc = .scan j) :
    Onward s next i (due s i) := by
  cases stepped with
  | skips here low silent =>
    cases scanning.symm.trans here
    refine ⟨rfl,rfl,rfl,fun _ member _ => member,?_⟩
    rw [due_quiet fun both => silent both.2]
    simp
  | leaves here low ready ended =>
    cases scanning.symm.trans here
    rw [countdown_onward scanned scanning low ready,due_ready low ready]
    · exact ⟨rfl,rfl,rfl,fun j member other => Finset.mem_erase.mpr ⟨other,member⟩,Int.sub_add_cancel _ _⟩
    · rfl
  | echoes here low ready opened data stays whole =>
    cases scanning.symm.trans here
    rw [countdown_onward scanned scanning low ready,due_ready low ready]
    · exact ⟨rfl,rfl,rfl,fun _ member _ => member,Int.sub_add_cancel _ _⟩
    · rfl
  | quits | breaks | finishes => simp at again

theorem turn_scanning (stepped : Stepped listenFd s (.turn beyond writen) next) : ∃ i, s.pc = .scan i := by
  cases stepped with
  | skips scanning | leaves scanning | quits scanning | breaks scanning | echoes scanning | finishes scanning =>
    exact ⟨_,scanning⟩

theorem scanned_turn (listed : Listed listenFd s) (scanned : Scanned listenFd s reads) (scanning : s.pc = .scan i)
    (stepped : Stepped listenFd s (.turn beyond writen) next) : Scanned listenFd next (readBy s next ++ reads) := by
  obtain ⟨order,reached⟩ := reads_onward scanned scanning
  rw [readBy_turn listed scanned scanning stepped]
  have onward : ∀ {j}, next.pc = .scan j → j = i + 1 ∧ Onward s next i (due s i) := by
    intro j again
    have onward := turn_onward scanned scanning stepped again
    rw [onward.pc] at again
    cases again
    exact ⟨rfl,onward⟩
  refine ⟨order,?_,?_,?_,?_,?_⟩ <;> intro j again <;> obtain ⟨rfl,onward⟩ := onward again
  · rw [onward.ready]; exact scanned.clients i scanning
  · rw [onward.ready,onward.maxfd]; exact scanned.within i scanning
  · intro j member above
    rw [onward.ready] at member
    exact onward.kept j (scanned.later i scanning j member (Nat.le_of_succ_le above)) (Nat.ne_of_gt above)
  · rw [onward.ready]; exact reached
  · have count := scanned.count i scanning
    have counted := onward.count
    rw [onward.ready,List.length_append]
    omega

theorem scanned_preserved (listed : Listed listenFd s) (scanned : Scanned listenFd s reads)
    (ran : step listenFd s action = some next) : Scanned listenFd next (note reads s action) := by
  have stepped := step_sound ran
  obtain ⟨order,clients,within,later,reached,count⟩ := scanned
  have scanned : Scanned listenFd s reads := ⟨order,clients,within,later,reached,count⟩
  cases action with
  | connect | peer => cases stepped; exact ⟨order,clients,within,later,reached,count⟩
  | select ready =>
    cases stepped with
    | pending => exact ⟨.nil,by simp,by simp,by simp,by simp,by simp⟩
    | ready waiting watched fresh =>
      refine ⟨.nil,fun _ _ => fresh,fun _ _ j member => listed.within j (watched member),
        fun _ _ j member _ => watched member,?_,by simp [note]⟩
      intro i scanning j
      cases scanning
      simp [note]
  | accept fd => cases stepped <;> exact ⟨order,by simp,by simp,by simp,by simp,by simp⟩
  | turn beyond writen =>
    obtain ⟨i,scanning⟩ := turn_scanning stepped
    have taken : turn s i beyond writen = some next := by simpa only [step,scanning] using ran
    have noted : note reads s (.turn beyond writen) = readBy s next ++ reads := by
      simp only [note,scanning,taken,Option.map_some,Option.getD_some]
    rw [noted]
    exact scanned_turn listed scanned scanning stepped

theorem quits_iff (chunk : Bytes) : quits chunk = true ↔ ascii "quit\n" <+: chunk := by
  have five : (ascii "quit\n").length = 5 := rfl
  simp only [quits,decide_eq_true_eq]
  constructor
  · intro same
    have long : 5 ≤ chunk.length := by
      by_contra short
      have last : (overlay chunk (List.replicate MAXLINE 0))[4]? = some 10 := by
        rw [← List.getElem?_take_of_lt (show 4 < 5 by decide),same]
        rfl
      rw [overlay_getElem?,if_neg (by omega),List.getElem?_replicate] at last
      simp [MAXLINE] at last
    rw [overlay,List.take_append_of_le_length long] at same
    rw [← same]
    exact List.take_prefix 5 chunk
  · rintro ⟨rest,rfl⟩
    rw [overlay,List.append_assoc,List.take_left' five]

-- The turn at descriptor i reads `chunk`, which begins with quit.
structure Quits (s : State) (i : Nat) (chunk : Bytes) : Prop where
  scanning : s.pc = .scan i
  read : ∃ k c, behind s i = some (k,c) ∧ c.read = .data chunk
  quit : ascii "quit\n" <+: chunk

-- The ways a turn ends a pass. The countdown is none of them.
theorem pass_ends (listed : Listed listenFd s) (scanned : Scanned listenFd s reads) (stepped : Stepped listenFd s (.turn beyond writen) next)
    (ended : next.pc = .select) :
    (∀ j, j ∈ readBy s next ++ reads ↔ j ∈ s.allfds) ∨
    ∃ i chunk, Quits s i chunk ∧ Open s i ∧ ¬ Open next i ∧
      ∀ j, j ∈ readBy s next ++ reads ↔ j ∈ s.allfds ∧ j ≤ i := by
  obtain ⟨i,scanning⟩ := turn_scanning stepped
  have member := (reads_onward scanned scanning).2
  rw [readBy_turn listed scanned scanning stepped]
  cases stepped with
  | skips | breaks => simp at ended
  | leaves here low ready gone =>
    cases scanning.symm.trans here
    rw [countdown_onward scanned scanning low ready] at ended
    · simp at ended
    · rfl
  | echoes here low ready opened data stays whole =>
    cases scanning.symm.trans here
    rw [countdown_onward scanned scanning low ready] at ended
    · simp at ended
    · rfl
  | quits here low ready opened data quit =>
    cases scanning.symm.trans here
    rename_i k c chunk
    refine .inr ⟨i,chunk,⟨scanning,⟨k,c,opened,data⟩,(quits_iff chunk).mp quit⟩,?_,?_,?_⟩
    · unfold Open
      rw [(behind_iff.mp opened).1]; rfl
    · simp [Open,leave]
    · intro j
      rw [member j,Nat.lt_succ_iff]
  | finishes here outside =>
    cases scanning.symm.trans here
    refine .inl fun j => ?_
    rw [member j]
    refine ⟨And.left,fun ready => ⟨ready,?_⟩⟩
    have low := scanned.within i scanning j ready
    omega

theorem every_ready_read (low : listenFd < FD_SETSIZE) (below : ∀ action ∈ actions, Below action)
    (ran : run (watched (step listenFd) note) (initial listenFd,[]) actions = some (s,reads)) :
    Listed listenFd s ∧ Scanned listenFd s reads ∧
    ∀ beyond writen next, step listenFd s (.turn beyond writen) = some next → next.pc = .select →
      (∀ j, j ∈ readBy s next ++ reads ↔ j ∈ s.allfds) ∨
      ∃ i chunk, Quits s i chunk ∧ Open s i ∧ ¬ Open next i ∧
        ∀ j, j ∈ readBy s next ++ reads ↔ j ∈ s.allfds ∧ j ≤ i := by
  let Kept (s : State) (reads : List Nat) : Prop := Listed listenFd s ∧ Scanned listenFd s reads
  have keeps : ∀ s reads action next, Kept s reads → Below action → step listenFd s action = some next →
      Kept next (note reads s action) := by
    intro s reads action next kept low stepped
    exact ⟨listed_preserved kept.1 kept.2 low (step_sound stepped),scanned_preserved kept.1 kept.2 stepped⟩
  have kept : Kept s reads := watched_preserves keeps ⟨initial_listed low,initial_scanned listenFd⟩ below ran
  exact ⟨kept.1,kept.2,fun beyond writen next stepped ended => pass_ends kept.1 kept.2 (step_sound stepped) ended⟩

def bothReady : List Action :=
  [.connect,.select {3},.accept 4,.connect,.select {3},.accept 5,.peer 0 .fin,.peer 1 (.data [104,105]),.select {4,5},
    .turn [] none,.turn [] none,.turn [] none,.turn [] none,.turn [] none,.turn [] none]

theorem every_ready_read_both : ∃ s, run (watched (step 3) note) (initial 3,[]) bothReady = some (s,[5,4]) ∧
    Listed 3 s ∧ Scanned 3 s [5,4] := by
  have both : (run (watched (step 3) note) (initial 3,[]) bothReady).map Prod.snd = some [5,4] := by decide +kernel
  obtain ⟨⟨s,reads⟩,ran,rfl⟩ := Option.map_eq_some_iff.mp both
  have kept := every_ready_read (by decide) (by simp [bothReady,Below,FD_SETSIZE]) ran
  exact ⟨s,ran,kept.1,kept.2.1⟩

end NetworkEx.SelectScan
