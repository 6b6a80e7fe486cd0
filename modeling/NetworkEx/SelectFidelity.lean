import Mathlib.Data.List.TakeWhile
import NetworkEx.SelectScan

namespace NetworkEx.SelectFidelity
open ByteStreams CText ChatSockets TransitionRuns SelectEcho

-- What each client has sent, noted beside the state.
def note (arrived : Nat → Bytes) (_ : State) : Action → Nat → Bytes
  | .peer k event => Function.update arrived k (arrived k ++ event.bytes)
  | _ => arrived

def sentTo (k : Nat) (s : State) : List Bytes := (s.writes.filter fun write => decide (write.1 = k)).map Prod.snd

def unread (k : Nat) (s : State) : Bytes := (s.conns k).elim [] Conn.unread

-- The client has back all that it has sent, but for what the server has not read.
def Level (k : Nat) (p : State × (Nat → Bytes)) : Prop := (sentTo k p.1).flatten ++ unread k p.1 = p.2 k

-- strlen ends the text of a read at its end, and the kernel takes all of it.
def Exact (chunk beyond : Bytes) (writen : Option Nat) : Prop :=
  0 ∉ chunk ∧ ∃ n, writen = some n ∧ chunk.length ≤ n ∧ (chunk.length = MAXLINE → n = MAXLINE ∨ beyond = [])

-- A turn that reads something of k writes it back, neither leaving for a quit nor
-- meeting a reset.
def Whole (k : Nat) (s : State) : Action → Prop
  | .turn beyond writen => ∀ i c chunk, s.pc = .scan i → i ≤ s.maxfd → i ∈ s.allfds → behind s i = some (k,c) →
      c.read = .data chunk → quits chunk = false ∧ c.failed = false ∧ Exact chunk beyond writen
  | _ => True

def Known (s : State) : Prop := ∀ k, s.established ≤ k → s.conns k = none

theorem untilNul_shorter {bytes : Bytes} (zero : 0 ∈ bytes) : (untilNul bytes).length < bytes.length := by
  have shorter : untilNul bytes <+: bytes := List.takeWhile_prefix _
  apply Nat.lt_of_le_of_ne shorter.length_le
  intro same
  have all := List.takeWhile_eq_self_iff.mp (shorter.eq_of_length same) 0 zero
  exact absurd all (by decide)

theorem append_take (chunk beyond : Bytes) (n : Nat) :
    (chunk ++ beyond).take n = chunk ↔ chunk.length ≤ n ∧ (n = chunk.length ∨ beyond = []) := by
  constructor
  · intro same
    have inside : chunk.length ≤ n := by
      have length := congrArg List.length same
      rw [List.length_take,List.length_append] at length
      omega
    rw [List.take_append,List.take_of_length_le inside,List.append_right_eq_self,List.take_eq_nil_iff] at same
    exact ⟨inside,same.imp_left fun zero => Nat.le_antisymm (Nat.le_of_sub_eq_zero zero) inside⟩
  · rintro ⟨inside,rfl | rfl⟩
    · exact List.take_left
    · rw [List.append_nil,List.take_of_length_le inside]

theorem exact_iff (some_ : chunk ≠ []) (fits : chunk.length ≤ MAXLINE) (k : Nat) (beyond : Bytes) (writen : Option Nat) :
    ((echoed k chunk beyond writen).map Prod.snd).flatten = chunk ↔ Exact chunk beyond writen := by
  cases writen with
  | none => exact iff_of_false (fun same => some_ same.symm) fun ⟨_,n,answer,_⟩ => nomatch answer
  | some n =>
    have wrote : ((echoed k chunk beyond (some n)).map Prod.snd).flatten = ((received chunk).getD (chunk ++ beyond)).take n :=
      List.append_nil _
    have plain : Exact chunk beyond (some n) ↔ 0 ∉ chunk ∧ chunk.length ≤ n ∧ (chunk.length = MAXLINE → n = MAXLINE ∨ beyond = []) :=
      ⟨fun ⟨clean,m,same,rest⟩ => ⟨clean,Option.some.inj same ▸ rest⟩,fun ⟨clean,rest⟩ => ⟨clean,n,rfl,rest⟩⟩
    rw [wrote,plain]
    by_cases zero : 0 ∈ chunk
    · obtain ⟨msg,found⟩ := Option.isSome_iff_exists.mp ((received_isSome chunk).mpr (.inr zero))
      refine iff_of_false ?_ fun exact_ => exact_.1 zero
      intro same
      have length := congrArg List.length same
      have shorter := untilNul_shorter zero
      rw [found,Option.getD_some,received_untilNul found,List.length_take] at length
      omega
    · rcases Nat.lt_or_eq_of_le fits with short | full
      · rw [received_short short zero,Option.getD_some,List.take_eq_self_iff]
        exact ⟨fun inside => ⟨zero,inside,fun full => absurd full (Nat.ne_of_lt short)⟩,fun exact_ => exact_.2.1⟩
      · have endless : received chunk = none := by
          rw [← Option.not_isSome_iff_eq_none,received_isSome]
          exact not_or.mpr ⟨Nat.not_lt_of_le (Nat.le_of_eq full.symm),zero⟩
        rw [endless,Option.getD_none,append_take,full]
        simp [zero]

theorem sentTo_added (wrote : next.writes = s.writes ++ more) :
    sentTo k next = sentTo k s ++ (more.filter fun write => decide (write.1 = k)).map Prod.snd := by
  rw [sentTo,sentTo,wrote,List.filter_append,List.map_append]

theorem echoed_own : ∀ write ∈ echoed j chunk beyond writen, write.1 = j := by
  cases writen <;> simp [echoed]

theorem read_nonempty (data : Conn.read c = .data chunk) : chunk ≠ [] := by
  obtain ⟨some_,rfl,_⟩ := read_data data
  intro nothing
  rcases List.take_eq_nil_iff.mp nothing with zero | empty
  · exact absurd zero (by decide)
  · exact some_ empty

theorem countdown_writes (s : State) (i : Nat) : (countdown s i).writes = s.writes ∧ (countdown s i).conns = s.conns ∧
    (countdown s i).established = s.established := by
  unfold countdown
  dsimp only
  split <;> exact ⟨rfl,rfl,rfl⟩

theorem known_update {conns : Nat → Option Conn} {new : Option Conn} (known : ∀ k, established ≤ k → conns k = none)
    (found : conns j = some c) : ∀ k, established ≤ k → Function.update conns j new k = none := by
  intro k outside
  have other : k ≠ j := by
    rintro rfl
    cases found.symm.trans (known k outside)
  rw [Function.update_of_ne other]
  exact known k outside

theorem known_preserved (known : Known s) (stepped : Stepped listenFd s action next) : Known next := by
  cases stepped with
  | connect live =>
    intro k outside
    show Function.update s.conns s.established _ k = none
    rw [Function.update_of_ne (Nat.ne_of_gt outside)]
    exact known k (Nat.le_of_succ_le outside)
  | peer live found moved => exact known_update known found
  | pending | ready | accepts | overindexes | skips | finishes => exact known
  | leaves => rw [Known,(countdown_writes _ _).2.1,(countdown_writes _ _).2.2]; exact known
  | quits scanning inside ready opened data quit => exact known_update known (behind_iff.mp opened).2
  | breaks scanning inside ready opened data stays broken => exact known_update known (behind_iff.mp opened).2
  | echoes scanning inside ready opened data stays whole =>
    rw [Known,(countdown_writes _ _).2.1,(countdown_writes _ _).2.2]
    exact known_update known (behind_iff.mp opened).2

theorem level_same (level : Level k (s,arrived)) (conns : next.conns k = s.conns k) (wrote : sentTo k next = sentTo k s) :
    Level k (next,arrived) := by
  rw [Level,wrote,unread,conns]
  exact level

theorem unread_of (found : s.conns k = some c) : unread k s = c.unread := by
  rw [unread,found]
  rfl

theorem level_read (level : Level k (s,arrived)) (found : s.conns k = some c) (data : c.read = .data chunk)
    (conns : next.conns k = some c.afterRead) (wrote : sentTo k next = sentTo k s ++ more) :
    Level k (next,arrived) ↔ more.flatten = chunk := by
  have sum : (sentTo k s).flatten ++ unread k s = arrived k := level
  rw [unread_of found,(read_data data).2.2] at sum
  show (sentTo k next).flatten ++ unread k next = arrived k ↔ _
  rw [wrote,unread_of conns,← sum,List.flatten_append,List.append_assoc,List.append_cancel_left_eq,List.append_cancel_right_eq]

theorem level_turn (level : Level k (s,arrived)) (found : s.conns j = some c) (data : c.read = .data chunk)
    (conns : next.conns = Function.update s.conns j (some c.afterRead)) (wrote : next.writes = s.writes ++ more)
    (own : ∀ write ∈ more, write.1 = j) : Level k (next,arrived) ↔ (j = k → (more.map Prod.snd).flatten = chunk) := by
  have added := sentTo_added (k := k) wrote
  by_cases same : j = k
  · subst same
    have all : more.filter (fun write => decide (write.1 = j)) = more :=
      List.filter_eq_self.mpr fun write member => decide_eq_true (own write member)
    rw [all] at added
    rw [level_read level found data (by rw [conns]; exact Function.update_self _ _ _) added]
    exact ⟨fun exact_ _ => exact_,fun exact_ => exact_ rfl⟩
  · have none_ : more.filter (fun write => decide (write.1 = k)) = [] := by
      rw [List.filter_eq_nil_iff]
      intro write member there
      exact same ((own write member).symm.trans (of_decide_eq_true there))
    rw [none_,List.map_nil,List.append_nil] at added
    refine iff_of_true (level_same level ?_ added) fun equal => absurd equal same
    rw [conns,Function.update_of_ne (Ne.symm same)]

theorem whole_turn (scanning : s.pc = .scan i) (inside : i ≤ s.maxfd) (ready : i ∈ s.allfds) (opened : behind s i = some (j,c))
    (data : c.read = .data chunk) (beyond : Bytes) (writen : Option Nat) :
    Whole k s (.turn beyond writen) ↔ (j = k → quits chunk = false ∧ c.failed = false ∧ Exact chunk beyond writen) := by
  constructor
  · rintro whole rfl
    exact whole i c chunk scanning inside ready opened data
  · intro whole i' d other there _ _ behind_ brings
    cases scanning.symm.trans there
    cases opened.symm.trans behind_
    cases data.symm.trans brings
    exact whole rfl

theorem whole_quiet (scanning : s.pc = .scan i)
    (quiet : ∀ c chunk, i ≤ s.maxfd → i ∈ s.allfds → behind s i = some (k,c) → c.read ≠ .data chunk) (beyond : Bytes)
    (writen : Option Nat) : Whole k s (.turn beyond writen) := by
  intro j c chunk there inside ready opened data
  cases scanning.symm.trans there
  exact absurd data (quiet c chunk inside ready opened)

theorem level_connect (known : Known s) (level : Level k (s,arrived)) :
    Level k ({s with conns := Function.update s.conns s.established (some .fresh),established := s.established + 1},arrived) := by
  by_cases same : k = s.established
  · have sum : (sentTo k s).flatten ++ unread k s = arrived k := level
    have nothing : unread k s = [] := by
      rw [unread,known k (Nat.le_of_eq same.symm)]
      rfl
    rw [nothing] at sum
    show (sentTo k s).flatten ++ unread k _ = arrived k
    rw [unread_of (c := .fresh) (by rw [same]; exact Function.update_self _ _ _)]
    exact sum
  · exact level_same level (Function.update_of_ne same _ _) rfl

theorem level_peer (level : Level k (s,arrived)) (found : s.conns j = some c) (moved : Conn.peer c event = some d) :
    Level k ({s with conns := Function.update s.conns j (some d)},Function.update arrived j (arrived j ++ event.bytes)) := by
  show (sentTo k s).flatten ++ unread k _ = Function.update arrived j (arrived j ++ event.bytes) k
  by_cases same : k = j
  · have sum : (sentTo k s).flatten ++ unread k s = arrived k := level
    rw [same] at sum ⊢
    rw [unread_of found] at sum
    rw [unread_of (c := d) (Function.update_self _ _ _),Function.update_self,peer_unread moved,← sum,List.append_assoc]
  · have kept : Level k ({s with conns := Function.update s.conns j (some d)},arrived) :=
      level_same level (Function.update_of_ne same _ _) rfl
    rw [Function.update_of_ne same]
    exact kept

theorem level_lost {good : Prop} (level : Level k (s,arrived)) (found : s.conns j = some c) (data : c.read = .data chunk)
    (conns : next.conns = Function.update s.conns j (some c.afterRead)) (wrote : next.writes = s.writes)
    (bad : ¬ good) : Level k (next,arrived) ↔ (j = k → good) := by
  have nothing : next.writes = s.writes ++ [] := wrote.trans (List.append_nil _).symm
  refine Iff.trans (level_turn level found data conns nothing (by simp)) ?_
  exact forall_congr' fun _ => iff_of_false (fun same => read_nonempty data same.symm) bad

theorem level_step (known : Known s) (level : Level k (s,arrived)) (stepped : Stepped listenFd s action next) :
    Level k (next,note arrived s action) ↔ Whole k s action := by
  cases stepped with
  | connect live => exact iff_of_true (level_connect known level) trivial
  | peer live found moved => exact iff_of_true (level_peer level found moved) trivial
  | pending | ready | accepts | overindexes => exact iff_of_true level trivial
  | skips scanning inside silent => exact iff_of_true level (whole_quiet scanning (fun _ _ _ ready => absurd ready silent) _ _)
  | finishes scanning outside => exact iff_of_true level (whole_quiet scanning (fun _ _ inside => absurd inside outside) _ _)
  | leaves scanning inside ready ended =>
    rename_i i beyond writen
    have same := countdown_writes (leave s i) i
    refine iff_of_true (level_same level (by rw [same.2.1]; rfl) (by rw [sentTo,same.1]; rfl)) ?_
    refine whole_quiet scanning (fun c chunk _ _ opened data => ?_) _ _
    rcases ended with gone | ⟨j,d,there,failed | eof⟩
    · cases opened.symm.trans gone
    · cases opened.symm.trans there
      cases data.symm.trans failed
    · cases opened.symm.trans there
      cases data.symm.trans eof
  | quits scanning inside ready opened data quit =>
    rw [whole_turn scanning inside ready opened data]
    refine level_lost level (behind_iff.mp opened).2 data rfl rfl ?_
    exact fun whole => absurd (quit.symm.trans whole.1) (by decide)
  | breaks scanning inside ready opened data stays broken =>
    rw [whole_turn scanning inside ready opened data]
    refine level_lost level (behind_iff.mp opened).2 data rfl rfl ?_
    exact fun whole => absurd (broken.symm.trans whole.2.1) (by decide)
  | echoes scanning inside ready opened data stays whole =>
    rename_i i j c chunk beyond writen
    have same := countdown_writes {s with
      conns := Function.update s.conns j (some c.afterRead),writes := s.writes ++ echoed j chunk beyond writen} i
    rw [whole_turn scanning inside ready opened data]
    refine Iff.trans (level_turn level (behind_iff.mp opened).2 data same.2.1 same.1 echoed_own) ?_
    refine forall_congr' fun _ => ?_
    rw [exact_iff (read_nonempty data) (read_length data)]
    exact ⟨fun exact_ => ⟨stays,whole,exact_⟩,fun all => all.2.2⟩

-- At all times each client has had back just what was read of it, in order and
-- whatever the others do, exactly if every turn that reads from it writes that
-- back; and then nothing is missing where nothing is left to read.
theorem echo_faithful (ran : run (watched (step listenFd) note) (initial listenFd,fun _ => []) actions = some (s,arrived))
    (k : Nat) :
    (Always (watched (step listenFd) note) (Level k) (initial listenFd,fun _ => []) actions ↔
      Every (step listenFd) (Whole k) (initial listenFd) actions) ∧
    (Every (step listenFd) (Whole k) (initial listenFd) actions → unread k s = [] → (sentTo k s).flatten = arrived k) := by
  have known : Known (initial listenFd) := fun _ _ => rfl
  have level : Level k (initial listenFd,fun _ => []) := rfl
  have exactly : Always (watched (step listenFd) note) (Level k) (initial listenFd,fun _ => []) actions ↔
      Every (step listenFd) (Whole k) (initial listenFd) actions := by
    let Kept (p : State × (Nat → Bytes)) : Prop := Known p.1
    have start : Kept (initial listenFd,fun _ => []) := known
    refine Iff.trans (always_iff_every ?_ ?_ start level ran) watched_every
    · intro p action q known _ moved
      exact known_preserved known (step_sound (watched_some moved).1)
    · intro p action q known level moved
      obtain ⟨stepped,noted⟩ := watched_some moved
      have here := level_step known level (step_sound stepped)
      rwa [← noted] at here
  refine ⟨exactly,fun every idle => ?_⟩
  have level : Level k (s,arrived) := always_last (exactly.mpr every) ran
  have last : (sentTo k s).flatten ++ unread k s = arrived k := level
  rwa [idle,List.append_nil] at last

def oneShort : List Action :=
  [.connect,.select {3},.accept 4,.connect,.select {3},.accept 5,.peer 0 (.data (ascii "ab")),.peer 1 (.data (ascii "cd")),
    .select {4,5},.turn [] none,.turn [] none,.turn [] none,.turn [] none,.turn [] (some 1),.turn [] (some 2)]

theorem echo_faithful_short : ∃ s arrived,
    run (watched (step 3) note) (initial 3,fun _ => []) oneShort = some (s,arrived) ∧ sentTo 0 s = [ascii "a"] ∧
    sentTo 1 s = [ascii "cd"] ∧ ¬ Every (step 3) (Whole 0) (initial 3) oneShort := by
  have ends : (run (watched (step 3) note) (initial 3,fun _ => []) oneShort).map
      (fun p => (sentTo 0 p.1,sentTo 1 p.1,unread 0 p.1,p.2 0)) = some ([ascii "a"],[ascii "cd"],[],ascii "ab") := by decide +kernel
  obtain ⟨⟨s,arrived⟩,ran,seen⟩ := Option.map_eq_some_iff.mp ends
  obtain ⟨first,rest⟩ := Prod.mk.inj seen
  obtain ⟨second,rest⟩ := Prod.mk.inj rest
  obtain ⟨idle,bytes⟩ := Prod.mk.inj rest
  refine ⟨s,arrived,ran,first,second,fun every => ?_⟩
  have back := (echo_faithful ran 0).2 every idle
  have first : sentTo 0 s = [ascii "a"] := first
  have bytes : arrived 0 = ascii "ab" := bytes
  rw [first,bytes] at back
  exact absurd back (by decide)

end NetworkEx.SelectFidelity
