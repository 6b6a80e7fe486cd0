import NetworkEx.EchoNonblocking

namespace NetworkEx.EchoTable
open ChatSockets TransitionRuns EchoNonblocking

def Open (s : State) (i : Nat) : Prop := (s.files i).isSome

instance (s : State) (i : Nat) : Decidable (Open s i) := inferInstanceAs (Decidable (_ = true))

-- The history of the scans: the descriptors read in the latest pass, latest
-- first, how often a pass ended with a descriptor open but not read in it, and
-- how many clients were closed.
structure Pass where
  reads : List Nat
  missed : Nat → Nat
  closed : Nat

def noPass : Pass := ⟨[],fun _ => 0,0⟩

-- Descriptor i was read between two states: its connection has lost what one read
-- brings, or the read brought nothing and the loop went on or the descriptor is closed.
def took (s next : State) (i : Nat) : Bool :=
  let closed := decide (Open s i ∧ ¬ Open next i)
  match behind s i with
  | none => closed
  | some (k,c) =>
    match c.read with
    | .data _ => decide (next.conns k = some c.afterRead)
    | .again => decide (next.pc = .scan (i+1))
    | _ => closed

def readBy (s next : State) : List Nat :=
  match s.pc with
  | .scan i => if took s next i then [i] else []
  | _ => []

def note (w : Pass) (s : State) : Action → Pass
  | .accept .again => {w with reads := []}
  | .turn writen =>
    match s.pc with
    | .scan i =>
      let next := turn s i writen
      let reads := readBy s next ++ w.reads
      {reads := reads
       missed := fun j => if next.pc = .accept ∧ Open next j ∧ j ∉ reads then w.missed j + 1 else w.missed j
       closed := if Open s i ∧ ¬ Open next i then w.closed + 1 else w.closed}
    | _ => w
  | _ => w

def Below : Action → Prop
  | .accept (.fd fd) => fd < maxClients
  | _ => True

structure Tabled (s : State) : Prop where
  inside : s.pc ≠ .wild
  marked : ∀ i, s.clientFdArray i = 1 ↔ Open s i
  within : ∀ i, Open s i → i ≤ s.maxfd
  table : s.maxfd < maxClients

theorem open_added {s next : State} {fd k : Nat} (added : next.files = Function.update s.files fd (some k)) :
    Open next i ↔ i = fd ∨ Open s i := by
  rw [Open,added]
  exact isSome_update

theorem open_leave : Open (leave s fd) i ↔ i ≠ fd ∧ Open s i := isSome_clear

theorem initial_tabled (low : serverSockfd < maxClients) : Tabled (initial serverSockfd) :=
  ⟨by simp [initial],by simp [initial,Open],by simp [initial,Open],low⟩

theorem tabled_preserved (valid : Tabled s) (below : Below action) (stepped : Stepped serverSockfd s action next) :
    Tabled next := by
  obtain ⟨inside,marked,within,table⟩ := valid
  cases stepped with
  | accepts waiting first other free small =>
    rename_i k later fd
    refine ⟨inside,?_,?_,Nat.max_lt.mpr ⟨table,small⟩⟩
    · intro i
      rw [@open_added i s _ fd k rfl]
      by_cases same : i = fd
      · simp [same]
      · simpa [Function.update_of_ne same,same] using marked i
    · intro i opened
      rcases (@open_added i s _ fd k rfl).mp opened with rfl | old
      · exact Nat.le_max_right _ _
      · exact Nat.le_trans (within i old) (Nat.le_max_left _ _)
  | overindexes waiting first other free large => exact absurd below large
  | leaves scanning inside client ended =>
    rename_i fd writen
    refine ⟨by simp [leave],?_,fun i opened => within i (open_leave.mp opened).2,table⟩
    intro i
    rw [open_leave]
    by_cases same : i = fd
    · simp [leave,same]
    · simpa [leave,Function.update_of_ne same,same] using marked i
  | connect | peer | acceptFails => exact ⟨inside,marked,within,table⟩
  | nothingPending | skips | breaks | echoes | finishes => exact ⟨by simp,marked,within,table⟩

-- `reached` carries the pass: of the clients below the index all were read.
structure Noted (s : State) (w : Pass) : Prop where
  once : w.reads.Nodup
  behind : ∀ i, s.pc = .scan i → ∀ j ∈ w.reads, j < i
  reached : ∀ i, s.pc = .scan i → ∀ j, j < i → Open s j → j ∈ w.reads
  owed : ∀ j, w.missed j ≤ w.closed

theorem initial_noted (serverSockfd : Nat) : Noted (initial serverSockfd) noPass :=
  ⟨List.nodup_nil,by simp [initial],by simp [initial],fun _ => Nat.le_refl _⟩

theorem behind_open (here : behind s i = some (k,c)) : Open s i := by
  unfold Open
  rw [(behind_iff.mp here).1]
  rfl

theorem took_shut (shut : ¬ Open s i) (next : State) : took s next i = false := by
  have nothing : behind s i = none := by
    by_contra found
    obtain ⟨⟨k,c⟩,here⟩ := Option.ne_none_iff_exists'.mp found
    exact shut (behind_open here)
  simp only [took,nothing,shut,false_and,decide_false]

theorem took_left (opened : Open s i) (ended : behind s i = none ∨ ∃ k c, behind s i = some (k,c) ∧ (c.read = .error ∨ c.read = .eof)) :
    took s (leave s i) i = true := by
  have closed : decide (Open s i ∧ ¬ Open (leave s i) i) = true := by simp [opened,open_leave]
  rcases ended with gone | ⟨k,c,here,failed | eof⟩
  · simp only [took,gone,closed]
  · simp only [took,here,failed,closed]
  · simp only [took,here,eof,closed]

theorem turn_reads (valid : Tabled s) (scanning : s.pc = .scan i) (stepped : Stepped serverSockfd s (.turn writen) next) :
    took s next i = decide (Open s i) := by
  cases stepped with
  | skips here low silent =>
    cases scanning.symm.trans here
    rcases silent with unmarked | ⟨k,c,found,again⟩
    · have shut : ¬ Open s i := fun opened => unmarked ((valid.marked i).mpr opened)
      rw [took_shut shut,decide_eq_false shut]
    · rw [decide_eq_true (behind_open found)]
      simp only [took,found,again,decide_true]
  | leaves here low client ended =>
    cases scanning.symm.trans here
    have opened := (valid.marked i).mp client
    rw [took_left opened ended,decide_eq_true opened]
  | breaks here low client found data broken | echoes here low client found data whole =>
    cases scanning.symm.trans here
    rw [decide_eq_true (behind_open found)]
    simp only [took,found,data,Function.update_self,decide_true]
  | finishes here outside =>
    cases scanning.symm.trans here
    have shut : ¬ Open s i := by
      intro opened
      have low := valid.within i opened
      omega
    rw [took_shut shut,decide_eq_false shut]

theorem readBy_turn (valid : Tabled s) (scanning : s.pc = .scan i) (stepped : Stepped serverSockfd s (.turn writen) next) :
    readBy s next = if Open s i then [i] else [] := by
  simp only [readBy,scanning,turn_reads valid scanning stepped,decide_eq_true_eq]

theorem turn_of (scanning : s.pc = .scan i) (stepped : Stepped serverSockfd s (.turn writen) next) :
    turn s i writen = next := by
  simpa [step,scanning] using step_complete stepped

theorem pass_ends (valid : Tabled s) (noted : Noted s w) (scanning : s.pc = .scan i)
    (stepped : Stepped serverSockfd s (.turn writen) next) (ended : next.pc = .accept) :
    (∀ j, Open next j → j ∈ readBy s next ++ w.reads) ∨ (i ∈ readBy s next ∧ Open s i ∧ next = leave s i) := by
  rw [readBy_turn valid scanning stepped]
  cases stepped with
  | leaves here inside client gone =>
    cases scanning.symm.trans here
    have opened := (valid.marked i).mp client
    exact .inr ⟨by simp [opened],opened,rfl⟩
  | finishes here outside =>
    cases scanning.symm.trans here
    refine .inl fun j opened => List.mem_append_right _ (noted.reached i scanning j ?_ opened)
    have low := valid.within j opened
    omega
  | skips | breaks | echoes => simp at ended

theorem reads_onward (noted : Noted s w) (scanning : s.pc = .scan i) :
    ((if Open s i then [i] else []) ++ w.reads).Nodup ∧ (∀ j ∈ (if Open s i then [i] else []) ++ w.reads, j < i + 1) ∧
      ∀ j, j < i + 1 → Open s j → j ∈ (if Open s i then [i] else []) ++ w.reads := by
  have behind := noted.behind i scanning
  by_cases client : Open s i
  · rw [if_pos client,List.singleton_append]
    refine ⟨List.nodup_cons.mpr ⟨fun member => Nat.lt_irrefl _ (behind i member),noted.once⟩,?_,?_⟩
    · intro j member
      rcases List.mem_cons.mp member with rfl | old
      · exact Nat.lt_succ_self _
      · exact Nat.lt_succ_of_lt (behind j old)
    · intro j below opened
      rcases Nat.lt_succ_iff_lt_or_eq.mp below with earlier | rfl
      · exact List.mem_cons_of_mem _ (noted.reached i scanning j earlier opened)
      · exact List.mem_cons_self
  · rw [if_neg client,List.nil_append]
    refine ⟨noted.once,fun j member => Nat.lt_succ_of_lt (behind j member),?_⟩
    intro j below opened
    rcases Nat.lt_succ_iff_lt_or_eq.mp below with earlier | rfl
    · exact noted.reached i scanning j earlier opened
    · exact absurd opened client

theorem owed_onward (valid : Tabled s) (noted : Noted s w) (scanning : s.pc = .scan i)
    (stepped : Stepped serverSockfd s (.turn writen) next) (j : Nat) :
    (note w s (.turn writen)).missed j ≤ (note w s (.turn writen)).closed := by
  have owed := noted.owed j
  have same := turn_of scanning stepped
  simp only [note,scanning,same]
  by_cases missed : next.pc = .accept ∧ Open next j ∧ j ∉ readBy s next ++ w.reads
  · rw [if_pos missed]
    rcases pass_ends valid noted scanning stepped missed.1 with all | ⟨_,opened,left⟩
    · exact absurd (all j missed.2.1) missed.2.2
    · have shut : ¬ Open next i := by
        rw [left,open_leave]
        exact fun both => both.1 rfl
      rw [if_pos ⟨opened,shut⟩]
      omega
  · rw [if_neg missed]
    split <;> omega

theorem turn_pc (scanning : s.pc = .scan i) (stepped : Stepped serverSockfd s (.turn writen) next) (again : next.pc = .scan j) :
    j = i + 1 ∧ next.files = s.files := by
  cases stepped with
  | skips here | echoes here =>
    cases scanning.symm.trans here
    cases again
    exact ⟨rfl,rfl⟩
  | leaves | breaks | finishes => simp [leave] at again

theorem noted_turn (valid : Tabled s) (noted : Noted s w) (scanning : s.pc = .scan i)
    (stepped : Stepped serverSockfd s (.turn writen) next) : Noted next (note w s (.turn writen)) := by
  obtain ⟨once,behind,reached⟩ := reads_onward noted scanning
  have reads : (note w s (.turn writen)).reads = (if Open s i then [i] else []) ++ w.reads := by
    rw [← readBy_turn valid scanning stepped]
    simp only [note,scanning,turn_of scanning stepped]
  refine ⟨?_,?_,?_,owed_onward valid noted scanning stepped⟩ <;> rw [reads]
  · exact once
  · intro j again
    obtain ⟨rfl,_⟩ := turn_pc scanning stepped again
    exact behind
  · intro j again k below opened
    obtain ⟨rfl,same⟩ := turn_pc scanning stepped again
    exact reached k below (by simpa [Open,same] using opened)

theorem turn_scanning (stepped : Stepped serverSockfd s (.turn writen) next) : ∃ i, s.pc = .scan i := by
  cases stepped with
  | skips scanning | leaves scanning | breaks scanning | echoes scanning | finishes scanning => exact ⟨_,scanning⟩

theorem noted_preserved (valid : Tabled s) (noted : Noted s w) (stepped : Stepped serverSockfd s action next) :
    Noted next (note w s action) := by
  obtain ⟨once,behind,reached,owed⟩ := noted
  have noted : Noted s w := ⟨once,behind,reached,owed⟩
  cases action with
  | turn writen =>
    obtain ⟨i,scanning⟩ := turn_scanning stepped
    exact noted_turn valid noted scanning stepped
  | connect | peer => cases stepped; exact ⟨once,behind,reached,owed⟩
  | accept answer =>
    cases stepped with
    | nothingPending waiting empty =>
      refine ⟨List.nodup_nil,?_,?_,owed⟩
      · intro i scanning j member
        cases member
      · intro i scanning j below
        cases scanning
        exact absurd below (Nat.not_lt_zero j)
    | acceptFails waiting => exact ⟨once,behind,reached,owed⟩
    | accepts waiting first other free small => exact ⟨once,by simp [waiting],by simp [waiting],owed⟩
    | overindexes waiting first other free large => exact ⟨once,by simp,by simp,owed⟩

-- A pass that stops short of an open client has just closed another one, so
-- that a client is passed over at most as often as clients leave.
theorem client_table (low : serverSockfd < maxClients) (below : ∀ action ∈ actions, Below action)
    (ran : run (watched (step serverSockfd) note) (initial serverSockfd,noPass) actions = some (s,w)) :
    Tabled s ∧ w.reads.Nodup ∧ (∀ j, w.missed j ≤ w.closed) ∧
    ∀ writen next, step serverSockfd s (.turn writen) = some next → next.pc = .accept →
      (∀ j, Open next j → j ∈ readBy s next ++ w.reads) ∨
      ∃ i, i ∈ readBy s next ∧ Open s i ∧ next = leave s i := by
  let Kept (s : State) (w : Pass) : Prop := Tabled s ∧ Noted s w
  have keeps : ∀ s w action next, Kept s w → Below action → step serverSockfd s action = some next →
      Kept next (note w s action) := by
    intro s w action next kept low stepped
    have stepped := step_sound stepped
    exact ⟨tabled_preserved kept.1 low stepped,noted_preserved kept.1 kept.2 stepped⟩
  have kept : Kept s w := watched_preserves keeps ⟨initial_tabled low,initial_noted serverSockfd⟩ below ran
  refine ⟨kept.1,kept.2.once,kept.2.owed,?_⟩
  intro writen next stepped ended
  have stepped := step_sound stepped
  obtain ⟨i,scanning⟩ := turn_scanning stepped
  rcases pass_ends kept.1 kept.2 scanning stepped ended with all | cut
  · exact .inl all
  · exact .inr ⟨i,cut⟩

def cutShort : List Action :=
  [.connect,.accept (.fd 4),.connect,.accept (.fd 5),.peer 0 .fin,.accept .again,.turn none,.turn none,.turn none,.turn none,
    .turn none]

theorem client_table_cut : ∃ s w, run (watched (step 3) note) (initial 3,noPass) cutShort = some (s,w) ∧
    w.missed 5 = 1 ∧ w.missed 5 ≤ w.closed ∧ Tabled s := by
  have once : (run (watched (step 3) note) (initial 3,noPass) cutShort).map (fun p => p.2.missed 5) = some 1 := by decide
  obtain ⟨⟨s,w⟩,ran,missed⟩ := Option.map_eq_some_iff.mp once
  have kept := client_table (by decide) (by simp [cutShort,Below,maxClients]) ran
  exact ⟨s,w,ran,missed,kept.2.2.1 5,kept.1⟩

end NetworkEx.EchoTable
