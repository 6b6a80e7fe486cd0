import Mathlib.Data.List.Forall2
import NetworkEx.EchoNonblocking

namespace NetworkEx.EchoIsolation
open ByteStreams ChatSockets TransitionRuns EchoNonblocking
open List (Forall₂)

-- Two runs side by side: the same steps, and the same lengths of data, whose
-- bytes are related in a way of their own for each connection.
inductive EventAlike (rel : UInt8 → UInt8 → Prop) : PeerEvent → PeerEvent → Prop where
  | data (same : Forall₂ rel bytes others) : EventAlike rel (.data bytes) (.data others)
  | fin : EventAlike rel .fin .fin
  | reset : EventAlike rel .reset .reset

inductive Alike (rel : Nat → UInt8 → UInt8 → Prop) : Action → Action → Prop where
  | connect : Alike rel .connect .connect
  | peer (event : EventAlike (rel k) here there) : Alike rel (.peer k here) (.peer k there)
  | accept : Alike rel (.accept answer) (.accept answer)
  | turn : Alike rel (.turn writen) (.turn writen)

structure ConnAlike (rel : UInt8 → UInt8 → Prop) (c d : Conn) : Prop where
  unread : Forall₂ rel c.unread d.unread
  closed : d.closed = c.closed
  failed : d.failed = c.failed

inductive ReadAlike (rel : UInt8 → UInt8 → Prop) : ReadResult → ReadResult → Prop where
  | data (same : Forall₂ rel chunk other) : ReadAlike rel (.data chunk) (.data other)
  | error : ReadAlike rel .error .error
  | eof : ReadAlike rel .eof .eof
  | again : ReadAlike rel .again .again

def echoes (k : Nat) (s : State) : List Bytes := (s.writes.filter fun write => decide (write.1 = k)).map Prod.snd

-- The turn at descriptor i is about to write back `chunk` of connection k.
structure Echoes (s : State) (k i : Nat) (chunk : Bytes) : Prop where
  scanning : s.pc = .scan i
  inside : i < s.maxfd + 1
  client : s.clientFdArray i = 1
  opened : ∃ c, behind s i = some (k,c) ∧ c.read = .data chunk ∧ c.failed = false

-- What is written back of k covers all that the pass has read before it, as
-- far as the kernel takes the write.
def Covers (k : Nat) (s : State) : Action → Prop
  | .turn (some writen) => ∀ i chunk, Echoes s k i chunk →
      ∀ earlier ∈ s.scanned, min earlier.2.length writen ≤ chunk.length
  | _ => True

variable {rel : Nat → UInt8 → UInt8 → Prop}

theorem peer_alike {rel : UInt8 → UInt8 → Prop} (conn : ConnAlike rel c d) (event : EventAlike rel here there)
    (moved : c.peer here = some next) : ∃ after, d.peer there = some after ∧ ConnAlike rel next after := by
  cases event with
  | data same =>
    rename_i bytes others
    obtain ⟨some,opened,whole,rfl⟩ := peer_data moved
    have other : others ≠ [] := by
      rintro rfl
      exact some (List.forall₂_nil_right_iff.mp same)
    refine ⟨{d with unread := d.unread ++ others},?_,List.rel_append conn.unread same,conn.closed,conn.failed⟩
    simp [Conn.peer,other,conn.closed,conn.failed,opened,whole]
  | fin =>
    have opened : c.closed = false := by
      by_contra closed
      simp [Conn.peer,closed] at moved
    obtain ⟨whole,rfl⟩ := peer_fin moved
    refine ⟨{d with closed := true},?_,conn.unread,rfl,conn.failed⟩
    simp [Conn.peer,conn.closed,conn.failed,opened,whole]
  | reset =>
    obtain ⟨whole,rfl⟩ := peer_reset moved
    refine ⟨{d with failed := true},?_,conn.unread,conn.closed,rfl⟩
    simp [Conn.peer,conn.failed,whole]

theorem read_alike {rel : UInt8 → UInt8 → Prop} (conn : ConnAlike rel c d) : ReadAlike rel c.read d.read := by
  by_cases empty : c.unread = []
  · have nothing : d.unread = [] := List.forall₂_nil_left_iff.mp (empty ▸ conn.unread)
    unfold Conn.read
    rw [conn.closed,conn.failed]
    by_cases failed : c.failed = true <;> by_cases closed : c.closed = true <;>
      simp only [empty,nothing,failed,closed,ne_eq,not_true_eq_false,if_false,if_true,Bool.false_eq_true]
    · exact .error
    · exact .error
    · exact .eof
    · exact .again
  · have some : d.unread ≠ [] := by
      intro nothing
      exact empty (List.forall₂_nil_right_iff.mp (nothing ▸ conn.unread))
    unfold Conn.read
    rw [if_pos empty,if_pos some]
    exact .data (List.forall₂_take _ conn.unread)

theorem afterRead_alike {rel : UInt8 → UInt8 → Prop} (conn : ConnAlike rel c d) :
    ConnAlike rel c.afterRead d.afterRead :=
  ⟨List.forall₂_drop _ conn.unread,conn.closed,conn.failed⟩

-- The two states agree on everything but bytes. Nothing is said of the buffers:
-- what they hold follows from what was scanned.
structure Twin (rel : Nat → UInt8 → UInt8 → Prop) (s t : State) : Prop where
  pc : t.pc = s.pc
  established : t.established = s.established
  backlog : t.backlog = s.backlog
  files : t.files = s.files
  clientFdArray : t.clientFdArray = s.clientFdArray
  maxfd : t.maxfd = s.maxfd
  conns : ∀ k, Option.Rel (ConnAlike (rel k)) (s.conns k) (t.conns k)
  scanned : Forall₂ (fun here there => there.1 = here.1 ∧ Forall₂ (rel here.1) here.2 there.2) s.scanned t.scanned
  writers : t.writes.map Prod.fst = s.writes.map Prod.fst

theorem initial_twin (serverSockfd : Nat) : Twin rel (initial serverSockfd) (initial serverSockfd) :=
  ⟨rfl,rfl,rfl,rfl,rfl,rfl,fun _ => .none,.nil,rfl⟩

theorem twin_found (twin : Twin rel s t) (found : s.conns k = some c) :
    ∃ d, t.conns k = some d ∧ ConnAlike (rel k) c d := by
  have both := twin.conns k
  rw [found] at both
  cases other : t.conns k with
  | none => rw [other] at both; cases both
  | some d => rw [other] at both; cases both with | some conn => exact ⟨d,rfl,conn⟩

theorem twin_behind (twin : Twin rel s t) (opened : behind s i = some (k,c)) :
    ∃ d, behind t i = some (k,d) ∧ ConnAlike (rel k) c d := by
  obtain ⟨held,found⟩ := behind_iff.mp opened
  obtain ⟨d,there,conn⟩ := twin_found twin found
  exact ⟨d,behind_iff.mpr ⟨by rw [twin.files,held],there⟩,conn⟩

theorem twin_gone (twin : Twin rel s t) (gone : behind s i = none) : behind t i = none := by
  cases there : behind t i with
  | none => rfl
  | some pair =>
    obtain ⟨held,found⟩ := behind_iff.mp there
    rw [twin.files] at held
    have both := twin.conns pair.1
    rw [found] at both
    cases here : s.conns pair.1 with
    | none => rw [here] at both; cases both
    | some c =>
      have opened : behind s i = some (pair.1,c) := behind_iff.mpr ⟨held,here⟩
      rw [gone] at opened; cases opened

theorem conns_update (twin : Twin rel s t) (pair : Option.Rel (ConnAlike (rel k)) here there) :
    ∀ j, Option.Rel (ConnAlike (rel j)) (Function.update s.conns k here j) (Function.update t.conns k there j) := by
  intro j
  by_cases equal : j = k
  · subst equal; simpa using pair
  · simpa [Function.update_of_ne equal] using twin.conns j

theorem twin_read (conn : ConnAlike (rel k) c d) (data : c.read = .data chunk) :
    ∃ other, d.read = .data other ∧ Forall₂ (rel k) chunk other := by
  have both := read_alike conn
  rw [data] at both
  cases there : d.read with
  | data other => rw [there] at both; cases both with | data same => exact ⟨other,rfl,same⟩
  | _ => rw [there] at both; cases both

theorem twin_quiet (conn : ConnAlike (rel k) c d) (quiet : ∀ chunk, c.read ≠ .data chunk) : d.read = c.read := by
  have both := read_alike conn
  cases here : c.read with
  | data chunk => exact absurd here (quiet chunk)
  | _ =>
    rw [here] at both
    generalize d.read = there at both ⊢
    cases both
    rfl

theorem twin_leave (twin : Twin rel s t) (i : Nat) : Twin rel (leave s i) (leave t i) :=
  ⟨rfl,twin.established,twin.backlog,by simp [leave,twin.files],by simp [leave,twin.clientFdArray],twin.maxfd,
    twin.conns,twin.scanned,twin.writers⟩

theorem echoed_writers (k : Nat) (buf other : Bytes) (writen : Option Nat) :
    (echoed k buf writen).map Prod.fst = (echoed k other writen).map Prod.fst := by
  cases writen <;> rfl

theorem twin_forward (twin : Twin rel s t) (alike : Alike rel action other)
    (stepped : Stepped serverSockfd s action next) :
    ∃ after, Stepped serverSockfd t other after ∧ Twin rel next after := by
  obtain ⟨pc,established,backlog,files,array,maxfd,conns,scanned,writers⟩ := twin
  have twin : Twin rel s t := ⟨pc,established,backlog,files,array,maxfd,conns,scanned,writers⟩
  cases stepped with
  | connect live =>
    cases alike
    refine ⟨_,.connect (by rw [pc]; exact live),pc,by simp [established],by simp [backlog,established],files,array,maxfd,?_,
      scanned,writers⟩
    rw [established]
    exact conns_update twin (.some ⟨.nil,rfl,rfl⟩)
  | peer live found moved =>
    cases alike with
    | peer event =>
      obtain ⟨d,there,conn⟩ := twin_found twin found
      obtain ⟨after,follows,still⟩ := peer_alike conn event moved
      exact ⟨_,.peer (by rw [pc]; exact live) there follows,pc,established,backlog,files,array,maxfd,
        conns_update twin (.some still),scanned,writers⟩
  | nothingPending waiting empty =>
    cases alike
    exact ⟨_,.nothingPending (pc.trans waiting) (backlog.trans empty),rfl,established,backlog,files,array,maxfd,conns,
      .nil,writers⟩
  | acceptFails waiting =>
    cases alike
    exact ⟨_,.acceptFails (pc.trans waiting),pc,established,backlog,files,array,maxfd,conns,scanned,writers⟩
  | accepts waiting first other free small =>
    cases alike
    exact ⟨_,.accepts (pc.trans waiting) (backlog.trans first) other (by rw [files]; exact free) small,pc,established,rfl,
      by simp [files],by simp [array],by simp [maxfd],conns,scanned,writers⟩
  | overindexes waiting first other free large =>
    cases alike
    exact ⟨_,.overindexes (pc.trans waiting) (backlog.trans first) other (by rw [files]; exact free) large,rfl,established,
      backlog,files,array,maxfd,conns,scanned,writers⟩
  | skips scanning inside silent =>
    cases alike
    refine ⟨_,.skips (pc.trans scanning) (by rw [maxfd]; exact inside) ?_,rfl,established,backlog,files,array,maxfd,conns,
      scanned,writers⟩
    rcases silent with silent | ⟨k,c,opened,again⟩
    · exact .inl (by rw [array]; exact silent)
    · obtain ⟨d,there,conn⟩ := twin_behind twin opened
      have same := twin_quiet conn (by simp [again])
      exact .inr ⟨k,d,there,same.trans again⟩
  | leaves scanning inside client ended =>
    cases alike
    refine ⟨_,.leaves (pc.trans scanning) (by rw [maxfd]; exact inside) (by rw [array]; exact client) ?_,
      twin_leave twin _⟩
    rcases ended with gone | ⟨k,c,opened,result⟩
    · exact .inl (twin_gone twin gone)
    · obtain ⟨d,there,conn⟩ := twin_behind twin opened
      have same := twin_quiet conn (by rcases result with failed | eof <;> simp [*])
      exact .inr ⟨k,d,there,by rw [same]; exact result⟩
  | breaks scanning inside client opened data broken =>
    cases alike
    obtain ⟨d,there,conn⟩ := twin_behind twin opened
    obtain ⟨other,read,same⟩ := twin_read conn data
    exact ⟨_,.breaks (pc.trans scanning) (by rw [maxfd]; exact inside) (by rw [array]; exact client) there read
      (conn.failed.trans broken),rfl,established,backlog,files,array,maxfd,
      conns_update twin (.some (afterRead_alike conn)),.cons ⟨rfl,same⟩ scanned,writers⟩
  | echoes scanning inside client opened data whole =>
    cases alike
    obtain ⟨d,there,conn⟩ := twin_behind twin opened
    obtain ⟨other,read,same⟩ := twin_read conn data
    refine ⟨_,.echoes (pc.trans scanning) (by rw [maxfd]; exact inside) (by rw [array]; exact client) there read
      (conn.failed.trans whole),rfl,established,backlog,files,array,maxfd,
      conns_update twin (.some (afterRead_alike conn)),.cons ⟨rfl,same⟩ scanned,?_⟩
    rw [List.map_append,List.map_append,writers,echoed_writers]
  | finishes scanning outside =>
    cases alike
    exact ⟨_,.finishes (pc.trans scanning) (by rw [maxfd]; exact outside),rfl,established,backlog,files,array,maxfd,conns,
      scanned,writers⟩

def stacked : List (Nat × Bytes) → Bytes
  | [] => zeroed
  | read :: older => overlay read.2 (stacked older)

theorem stacked_beyond (short : ∀ read ∈ reads, read.2.length ≤ p) : (stacked reads)[p]? = zeroed[p]? := by
  induction reads with
  | nil => rfl
  | cons read older ih =>
    have here := short read List.mem_cons_self
    rw [stacked,overlay_getElem?,if_neg (by omega)]
    exact ih fun earlier member => short earlier (List.mem_cons_of_mem _ member)

theorem stacked_shifted {others : List (Nat × Bytes)}
    (same : Forall₂ (fun here there => Forall₂ (fun x y => y = x + 1) here.2 there.2) reads others)
    (reached : ∃ read ∈ reads, p < read.2.length) :
    ∃ x : UInt8, (stacked reads)[p]? = some x ∧ (stacked others)[p]? = some (x + 1) := by
  induction same with
  | nil => obtain ⟨read,none,_⟩ := reached; cases none
  | @cons here there older others pair _ ih =>
    by_cases inside : p < here.2.length
    · have insideThere : p < there.2.length := by rw [← pair.length_eq]; exact inside
      have shifted : there.2[p] = here.2[p] + 1 := pair.get inside insideThere
      refine ⟨here.2[p],?_,?_⟩
      · rw [stacked,overlay_getElem?,if_pos inside,List.getElem?_eq_getElem inside]
      · rw [stacked,overlay_getElem?,if_pos insideThere,List.getElem?_eq_getElem insideThere,shifted]
    · have beyond : ¬ p < there.2.length := by rw [← pair.length_eq]; exact inside
      obtain ⟨read,member,longer⟩ := reached
      have later : ∃ read ∈ older, p < read.2.length := by
        rcases List.mem_cons.mp member with rfl | member
        · exact absurd longer inside
        · exact ⟨read,member,longer⟩
      obtain ⟨x,found,shifted⟩ := ih later
      refine ⟨x,?_,?_⟩
      · rw [stacked,overlay_getElem?,if_neg inside,found]
      · rw [stacked,overlay_getElem?,if_neg beyond,shifted]

-- In a scan the buffer is what its reads left, and they were of descriptors
-- already passed. A connection is behind one descriptor at most.
structure Valid (s : State) : Prop where
  buf : ∀ i, s.pc = .scan i → s.buf = stacked s.scanned
  passed : ∀ i, s.pc = .scan i → ∀ read ∈ s.scanned, ∃ j, j < i ∧ s.files j = some read.1
  single : ∀ i j k, s.files i = some k → s.files j = some k → i = j
  pending : ∀ k ∈ s.backlog, ∀ i, s.files i ≠ some k
  once : s.backlog.Nodup
  known : ∀ k, k ∈ s.backlog ∨ (∃ i, s.files i = some k) → k < s.established

theorem initial_valid (serverSockfd : Nat) : Valid (initial serverSockfd) :=
  ⟨by simp [initial],by simp [initial],by simp [initial],by simp [initial],by simp [initial],by simp [initial]⟩

theorem valid_connect (valid : Valid s) :
    Valid {s with
      established := s.established + 1,conns := conns,backlog := s.backlog ++ [s.established]} := by
  refine ⟨valid.buf,valid.passed,valid.single,?_,?_,?_⟩
  · intro k member i held
    rcases List.mem_append.mp member with old | new
    · exact valid.pending k old i held
    · exact absurd (valid.known k (.inr ⟨i,held⟩)) (by simp [List.mem_singleton.mp new])
  · have new : s.established ∉ s.backlog := fun old => Nat.lt_irrefl _ (valid.known _ (.inl old))
    simpa [List.nodup_append] using ⟨valid.once,fun k old equal => new (equal ▸ old)⟩
  · rintro k (member | held)
    · rcases List.mem_append.mp member with old | new
      · exact Nat.lt_succ_of_lt (valid.known k (.inl old))
      · rw [List.mem_singleton.mp new]; exact Nat.lt_succ_self _
    · exact Nat.lt_succ_of_lt (valid.known k (.inr held))

theorem valid_accept (valid : Valid s) (waiting : s.pc = .accept) (first : s.backlog = k :: later) :
    Valid {s with
      buf := buf,backlog := later,files := Function.update s.files fd (some k),clientFdArray := array,maxfd := maxfd} := by
  have pending := valid.pending
  have once := valid.once
  rw [first] at pending once
  obtain ⟨unique,rest⟩ := List.nodup_cons.mp once
  refine ⟨by simp [waiting],by simp [waiting],?_,?_,rest,?_⟩
  · intro i j known here there
    rcases update_found here with ⟨atHere,new⟩ | ⟨_,oldHere⟩ <;> rcases update_found there with ⟨atThere,same⟩ | ⟨_,oldThere⟩
    · exact atHere.trans atThere.symm
    · exact absurd (new ▸ oldThere) (pending k List.mem_cons_self j)
    · exact absurd (same ▸ oldHere) (pending k List.mem_cons_self i)
    · exact valid.single i j known oldHere oldThere
  · intro known member i held
    rcases update_found held with ⟨rfl,rfl⟩ | ⟨_,held⟩
    · exact unique member
    · exact pending known (List.mem_cons_of_mem _ member) i held
  · rintro known (member | ⟨i,held⟩)
    · exact valid.known known (.inl (by rw [first]; exact List.mem_cons_of_mem _ member))
    · rcases update_found held with ⟨rfl,rfl⟩ | ⟨_,held⟩
      · exact valid.known _ (.inl (by rw [first]; exact List.mem_cons_self))
      · exact valid.known known (.inr ⟨i,held⟩)

theorem valid_leave (valid : Valid s) (i : Nat) : Valid (leave s i) := by
  have kept : ∀ {j k}, Function.update s.files i none j = some k → s.files j = some k := fun held => (clear_found held).2
  refine ⟨by simp [leave],by simp [leave],?_,?_,valid.once,?_⟩
  · intro a b k here there; exact valid.single a b k (kept here) (kept there)
  · intro k member j held; exact valid.pending k member j (kept held)
  · rintro k (member | ⟨j,held⟩)
    · exact valid.known k (.inl member)
    · exact valid.known k (.inr ⟨j,kept held⟩)

theorem valid_preserved (valid : Valid s) (stepped : Stepped serverSockfd s action next) : Valid next := by
  obtain ⟨buf,passed,single,pending,once,known⟩ := valid
  have valid : Valid s := ⟨buf,passed,single,pending,once,known⟩
  have further : ∀ {i}, s.pc = .scan i → ∀ read ∈ s.scanned, ∃ j, j < i + 1 ∧ s.files j = some read.1 := by
    intro i scanning read member
    obtain ⟨j,before,held⟩ := passed i scanning read member
    exact ⟨j,Nat.lt_succ_of_lt before,held⟩
  cases stepped with
  | connect live => exact valid_connect valid
  | peer live found moved => exact ⟨buf,passed,single,pending,once,known⟩
  | nothingPending waiting empty => exact ⟨fun _ _ => rfl,by simp,single,pending,once,known⟩
  | acceptFails waiting => exact ⟨by simp [waiting],by simp [waiting],single,pending,once,known⟩
  | accepts waiting first other free small => exact valid_accept valid waiting first
  | overindexes waiting first other free large => exact ⟨by simp,by simp,single,pending,once,known⟩
  | skips scanning inside silent =>
    refine ⟨fun _ _ => buf _ scanning,?_,single,pending,once,known⟩
    rintro i ⟨⟩
    exact further scanning
  | leaves scanning inside client ended => exact valid_leave valid _
  | breaks scanning inside client opened data broken => exact ⟨by simp,by simp,single,pending,once,known⟩
  | echoes scanning inside client opened data whole =>
    refine ⟨fun _ _ => by rw [stacked,buf _ scanning],?_,single,pending,once,known⟩
    rintro i ⟨⟩ read member
    rcases List.mem_cons.mp member with rfl | old
    · exact ⟨_,Nat.lt_succ_self _,(behind_iff.mp opened).1⟩
    · exact further scanning read old
  | finishes scanning outside => exact ⟨by simp,by simp,single,pending,once,known⟩

theorem run_valid (ran : run (step serverSockfd) (initial serverSockfd) actions = some s) : Valid s :=
  run_invariant (fun _ _ _ valid stepped => valid_preserved valid (step_sound stepped)) (initial_valid serverSockfd) ran

theorem echo_cases (stepped : Stepped serverSockfd s action next) :
    next.writes = s.writes ∨ ∃ k i chunk writen, action = .turn (some writen) ∧ Echoes s k i chunk ∧
      next.writes = s.writes ++ [(k,(overlay chunk s.buf).take writen)] := by
  cases stepped with
  | echoes scanning inside client opened data whole =>
    rename_i i k c chunk writen
    cases writen with
    | none => exact .inl (List.append_nil _)
    | some writen => exact .inr ⟨k,i,chunk,writen,rfl,⟨scanning,inside,client,c,opened,data,whole⟩,rfl⟩
  | _ => exact .inl rfl

theorem echo_writes (here : Echoes s k i chunk) (stepped : Stepped serverSockfd s (.turn (some writen)) next) :
    next.writes = s.writes ++ [(k,(overlay chunk s.buf).take writen)] := by
  obtain ⟨c,opened,data,whole⟩ := here.opened
  have ran := step_complete stepped
  simp only [step,here.scanning,turn,here.inside,here.client,opened,data,whole,ne_eq,not_true_eq_false,if_true,if_false,
    Bool.false_eq_true,Option.some.injEq] at ran
  subst ran; rfl

theorem twin_echoes (twin : Twin rel s t) (here : Echoes s k i chunk) :
    ∃ other, Echoes t k i other ∧ Forall₂ (rel k) chunk other := by
  obtain ⟨c,opened,data,whole⟩ := here.opened
  obtain ⟨d,there,conn⟩ := twin_behind twin opened
  obtain ⟨other,read,same⟩ := twin_read conn data
  exact ⟨other,⟨twin.pc.trans here.scanning,by rw [twin.maxfd]; exact here.inside,
    by rw [twin.clientFdArray]; exact here.client,d,there,read,conn.failed.trans whole⟩,same⟩

theorem echo_pair (twin : Twin rel s t) (still : Twin rel next after) (alike : Alike rel action other)
    (stepped : Stepped serverSockfd s action next) (followed : Stepped serverSockfd t other after) :
    (next.writes = s.writes ∧ after.writes = t.writes) ∨
    ∃ k i chunk answer writen, action = .turn (some writen) ∧ Echoes s k i chunk ∧ Forall₂ (rel k) chunk answer ∧
      next.writes = s.writes ++ [(k,(overlay chunk s.buf).take writen)] ∧
      after.writes = t.writes ++ [(k,(overlay answer t.buf).take writen)] := by
  rcases echo_cases stepped with quiet | ⟨k,i,chunk,writen,rfl,here,wrote⟩
  · rcases echo_cases followed with silent | ⟨j,m,answer,taken,_,_,told⟩
    · exact .inl ⟨quiet,silent⟩
    · have before := congrArg List.length twin.writers
      have now := congrArg List.length still.writers
      rw [quiet,told] at now
      simp only [List.length_map,List.length_append,List.length_singleton] at before now
      omega
  · obtain ⟨answer,there,bytes⟩ := twin_echoes twin here
    cases alike
    exact .inr ⟨k,i,chunk,answer,writen,rfl,here,bytes,wrote,echo_writes there followed⟩

theorem echoes_kept (same : next.writes = s.writes) : echoes k next = echoes k s := by rw [echoes,same,echoes]

theorem echoes_added (wrote : next.writes = s.writes ++ [(j,text)]) :
    echoes k next = echoes k s ++ if j = k then [text] else [] := by
  rw [echoes,wrote,List.filter_append,List.map_append,echoes]
  by_cases equal : j = k <;> simp [equal]

def sameFor (k : Nat) : Nat → UInt8 → UInt8 → Prop := fun j x y => j = k → x = y

def shiftedBut (k : Nat) : Nat → UInt8 → UInt8 → Prop := fun j x y => y = if j = k then x else x + 1

def shiftAction (k : Nat) : Action → Action
  | .peer j (.data bytes) => .peer j (.data (bytes.map fun x => if j = k then x else x + 1))
  | action => action

theorem event_mono {rel other : UInt8 → UInt8 → Prop} (weaker : ∀ x y, rel x y → other x y)
    (event : EventAlike rel here there) : EventAlike other here there := by
  cases event with
  | data same => exact .data (same.imp weaker)
  | fin => exact .fin
  | reset => exact .reset

theorem shift_alike (k : Nat) (action : Action) : Alike (shiftedBut k) action (shiftAction k action) := by
  cases action with
  | connect => exact .connect
  | accept answer => exact .accept
  | turn writen => exact .turn
  | peer j event =>
    cases event with
    | data bytes =>
      refine .peer (.data ?_)
      rw [List.forall₂_map_right_iff,List.forall₂_same]
      exact fun _ _ => rfl
    | fin => exact .peer .fin
    | reset => exact .peer .reset

theorem alike_mono {other : Nat → UInt8 → UInt8 → Prop} (weaker : ∀ k x y, rel k x y → other k x y)
    (alike : Alike rel here there) : Alike other here there := by
  cases alike with
  | connect => exact .connect
  | peer event => exact .peer (event_mono (weaker _) event)
  | accept => exact .accept
  | turn => exact .turn

theorem shift_sameFor (k : Nat) (action : Action) : Alike (sameFor k) action (shiftAction k action) := by
  refine alike_mono ?_ (shift_alike k action)
  rintro j x y shifted rfl
  simpa [shiftedBut] using shifted.symm

theorem lengths_twin {reads others : List (Nat × Bytes)}
    (scanned : Forall₂ (fun here there => there.1 = here.1 ∧ Forall₂ (rel here.1) here.2 there.2) reads others)
    (short : ∀ read ∈ reads, read.2.length ≤ p) : ∀ read ∈ others, read.2.length ≤ p := by
  induction scanned with
  | nil => simp
  | cons pair _ ih =>
    intro read member
    rcases List.mem_cons.mp member with rfl | later
    · rw [← pair.2.length_eq]; exact short _ List.mem_cons_self
    · exact ih (fun read member => short read (List.mem_cons_of_mem _ member)) read later

theorem covered_echo {s t : State} (twin : Twin rel s t)
    (covers : ∀ earlier ∈ s.scanned, min earlier.2.length writen ≤ chunk.length) :
    (overlay chunk (stacked s.scanned)).take writen = (overlay chunk (stacked t.scanned)).take writen := by
  apply List.ext_getElem?
  intro p
  rw [List.getElem?_take,List.getElem?_take]
  split
  · rename_i taken
    rw [overlay_getElem?,overlay_getElem?]
    split
    · rfl
    · rename_i beyond
      have short : ∀ read ∈ s.scanned, read.2.length ≤ p := by
        intro read member
        have covered := covers read member
        omega
      rw [stacked_beyond short,stacked_beyond (lengths_twin twin.scanned short)]
  · rfl

theorem forward_covered (twin : Twin (sameFor k) s t) (valid : Valid s) (validThere : Valid t)
    (same : echoes k t = echoes k s) (alike : Alike (sameFor k) action other) (covers : Covers k s action)
    (stepped : Stepped serverSockfd s action next) :
    ∃ after, Stepped serverSockfd t other after ∧ Twin (sameFor k) next after ∧ echoes k after = echoes k next := by
  obtain ⟨after,followed,still⟩ := twin_forward twin alike stepped
  refine ⟨after,followed,still,?_⟩
  rcases echo_pair twin still alike stepped followed with ⟨quiet,silent⟩ | ⟨j,i,chunk,answer,writen,rfl,here,bytes,wrote,told⟩
  · rw [echoes_kept quiet,echoes_kept silent,same]
  · rw [echoes_added wrote,echoes_added told,same]
    by_cases equal : j = k
    · subst equal
      have equalBytes : chunk = answer := by
        rw [← List.forall₂_eq_eq_eq]
        exact bytes.imp fun _ _ equal => equal rfl
      rw [← equalBytes,valid.buf i here.scanning,validThere.buf i (twin.pc.trans here.scanning)]
      rw [covered_echo twin (covers i chunk here)]
    · simp [equal]

theorem scanned_others (valid : Valid s) (here : Echoes s k i chunk) : ∀ read ∈ s.scanned, read.1 ≠ k := by
  rintro read member rfl
  obtain ⟨j,before,held⟩ := valid.passed i here.scanning read member
  obtain ⟨c,opened,_⟩ := here.opened
  have equal := valid.single j i read.1 held (behind_iff.mp opened).1
  omega

theorem uncovered_echo (twin : Twin (shiftedBut k) s t) (valid : Valid s) (here : Echoes s k i chunk)
    {old : Nat × Bytes} (earlier : old ∈ s.scanned) (longer : chunk.length < min old.2.length writen) :
    (overlay chunk (stacked s.scanned)).take writen ≠ (overlay chunk (stacked t.scanned)).take writen := by
  have others := scanned_others valid here
  have shifted : Forall₂ (fun here there => Forall₂ (fun x y => y = x + 1) here.2 there.2) s.scanned t.scanned := by
    refine ((List.forall₂_and_left _ _).mpr ⟨others,twin.scanned⟩).imp ?_
    rintro here there ⟨other,_,bytes⟩
    refine bytes.imp fun x y shifted => ?_
    simpa [shiftedBut,other] using shifted
  obtain ⟨x,found,after⟩ := stacked_shifted shifted ⟨old,earlier,(by omega : chunk.length < old.2.length)⟩
  intro same
  have byte := congrArg (fun text => text[chunk.length]?) same
  simp only [List.getElem?_take,overlay_getElem?,Nat.lt_irrefl,if_false] at byte
  rw [if_pos (by omega),if_pos (by omega),found,after] at byte
  simp at byte

theorem forward_different (twin : Twin rel s t) (different : echoes k t ≠ echoes k s) (alike : Alike rel action other)
    (stepped : Stepped serverSockfd s action next) :
    ∃ after, Stepped serverSockfd t other after ∧ Twin rel next after ∧ echoes k after ≠ echoes k next := by
  obtain ⟨after,followed,still⟩ := twin_forward twin alike stepped
  refine ⟨after,followed,still,?_⟩
  rcases echo_pair twin still alike stepped followed with ⟨quiet,silent⟩ | ⟨j,i,chunk,answer,writen,rfl,here,bytes,wrote,told⟩
  · rwa [echoes_kept quiet,echoes_kept silent]
  · rw [echoes_added wrote,echoes_added told]
    intro same
    by_cases equal : j = k
    · simp only [equal,if_true] at same
      exact different (List.append_inj' same rfl).1
    · simp only [equal,if_false,List.append_nil] at same
      exact different same

theorem not_covers (uncovered : ¬ Covers k s action) :
    ∃ writen i chunk, ∃ old ∈ s.scanned, action = .turn (some writen) ∧ Echoes s k i chunk ∧
      chunk.length < min old.2.length writen := by
  cases action with
  | turn answer =>
    cases answer with
    | some writen =>
      simp only [Covers,not_forall,Nat.not_le] at uncovered
      obtain ⟨i,chunk,here,old,earlier,longer⟩ := uncovered
      exact ⟨writen,i,chunk,old,earlier,rfl,here,longer⟩
    | none => exact absurd trivial uncovered
  | _ => exact absurd trivial uncovered

theorem forward_uncovered (twin : Twin (shiftedBut k) s t) (valid : Valid s) (validThere : Valid t)
    (uncovered : ¬ Covers k s action) (alike : Alike (shiftedBut k) action other)
    (stepped : Stepped serverSockfd s action next) (same : echoes k t = echoes k s) :
    ∃ after, Stepped serverSockfd t other after ∧ Twin (shiftedBut k) next after ∧ echoes k after ≠ echoes k next := by
  obtain ⟨writen,i,chunk,old,earlier,rfl,here,longer⟩ := not_covers uncovered
  obtain ⟨after,followed,still⟩ := twin_forward twin alike stepped
  obtain ⟨answer,there,bytes⟩ := twin_echoes twin here
  have equalBytes : chunk = answer := by
    rw [← List.forall₂_eq_eq_eq]
    exact bytes.imp fun _ _ shifted => by simpa [shiftedBut] using shifted.symm
  refine ⟨after,followed,still,?_⟩
  cases alike
  rw [echoes_added (echo_writes here stepped),echoes_added (echo_writes there followed),same,← equalBytes]
  rw [valid.buf i here.scanning,validThere.buf i (twin.pc.trans here.scanning)]
  simpa using (uncovered_echo twin valid here earlier longer).symm

theorem run_twin (same : Forall₂ (Alike rel) actions others) (twin : Twin rel s t)
    (ran : run (step serverSockfd) s actions = some next) :
    ∃ after, run (step serverSockfd) t others = some after ∧ Twin rel next after := by
  refine run_follows ?_ twin same ran
  intro s t action other next twin alike ran
  obtain ⟨after,followed,still⟩ := twin_forward twin alike (step_sound ran)
  exact ⟨after,step_complete followed,still⟩

theorem run_different (same : Forall₂ (Alike rel) actions others) (twin : Twin rel s t)
    (different : echoes k t ≠ echoes k s) (ran : run (step serverSockfd) s actions = some next) :
    ∃ after, run (step serverSockfd) t others = some after ∧ echoes k after ≠ echoes k next := by
  let related := fun s t => Twin rel s t ∧ echoes k t ≠ echoes k s
  have forward : ∀ s t action other next, related s t → Alike rel action other → step serverSockfd s action = some next →
      ∃ after, step serverSockfd t other = some after ∧ related next after := by
    rintro s t action other next ⟨twin,different⟩ alike ran
    obtain ⟨after,followed,still⟩ := forward_different twin different alike (step_sound ran)
    exact ⟨after,step_complete followed,still⟩
  obtain ⟨after,reached,_,last⟩ := run_follows forward ⟨twin,different⟩ same ran
  exact ⟨after,reached,last⟩

theorem run_covered (same : Forall₂ (Alike (sameFor k)) actions others)
    (covers : Every (step serverSockfd) (Covers k) (initial serverSockfd) actions)
    (ran : run (step serverSockfd) (initial serverSockfd) actions = some s) :
    ∃ t, run (step serverSockfd) (initial serverSockfd) others = some t ∧ echoes k t = echoes k s := by
  let related := fun s t => Twin (sameFor k) s t ∧ Valid s ∧ Valid t ∧ echoes k t = echoes k s
  have forward : ∀ s t action other next, related s t → Alike (sameFor k) action other → Covers k s action →
      step serverSockfd s action = some next → ∃ after, step serverSockfd t other = some after ∧ related next after := by
    rintro s t action other next ⟨twin,valid,validThere,equal⟩ alike covers ran
    obtain ⟨after,followed,still,last⟩ := forward_covered twin valid validThere equal alike covers (step_sound ran)
    exact ⟨after,step_complete followed,still,valid_preserved valid (step_sound ran),
      valid_preserved validThere followed,last⟩
  have start : related (initial serverSockfd) (initial serverSockfd) :=
    ⟨initial_twin serverSockfd,initial_valid serverSockfd,initial_valid serverSockfd,rfl⟩
  obtain ⟨t,reached,_,_,_,last⟩ := run_simulates forward start same covers ran
  exact ⟨t,reached,last⟩

theorem pairs_shifted (k : Nat) (actions : List Action) :
    Forall₂ (Alike (shiftedBut k)) actions (actions.map (shiftAction k)) := by
  rw [List.forall₂_map_right_iff,List.forall₂_same]
  exact fun action _ => shift_alike k action

theorem run_uncovered (ran : run (step serverSockfd) (initial serverSockfd) actions = some s)
    (uncovered : ¬ Every (step serverSockfd) (Covers k) (initial serverSockfd) actions) :
    ∃ t, run (step serverSockfd) (initial serverSockfd) (actions.map (shiftAction k)) = some t ∧
      echoes k t ≠ echoes k s := by
  obtain ⟨first,action,rest,before,rfl,reached,here⟩ := every_fails uncovered ran
  rw [run_append,reached] at ran
  obtain ⟨there,follows,twin⟩ := run_twin (pairs_shifted k first) (initial_twin serverSockfd) reached
  rw [List.map_append,run_append,follows]
  by_cases same : echoes k there = echoes k before
  · obtain ⟨next,stepped,onward⟩ := run_cons_some ran
    obtain ⟨after,followed,still,different⟩ := forward_uncovered twin (run_valid reached) (run_valid follows) here
      (shift_alike k action) (step_sound stepped) same
    obtain ⟨t,finished,last⟩ := run_different (pairs_shifted k rest) still different onward
    exact ⟨t,by simpa [run_cons,step_complete followed] using finished,last⟩
  · exact run_different (pairs_shifted k (action :: rest)) twin same ran

-- What client k is sent does not depend on the bytes of others exactly when
-- each write to it covers what the same pass has read before.
theorem isolation_exact (ran : run (step serverSockfd) (initial serverSockfd) actions = some s) (k : Nat) :
    (∀ others, Forall₂ (Alike (sameFor k)) actions others →
      ∃ t, run (step serverSockfd) (initial serverSockfd) others = some t ∧ echoes k t = echoes k s) ↔
    Every (step serverSockfd) (Covers k) (initial serverSockfd) actions := by
  constructor
  · intro isolated
    by_contra uncovered
    obtain ⟨t,reached,different⟩ := run_uncovered ran uncovered
    have alike : Forall₂ (Alike (sameFor k)) actions (actions.map (shiftAction k)) := by
      rw [List.forall₂_map_right_iff,List.forall₂_same]
      exact fun action _ => shift_sameFor k action
    obtain ⟨u,same,equal⟩ := isolated _ alike
    cases reached.symm.trans same
    exact different equal
  · intro covers others same
    exact run_covered same covers ran

def onePass (first second : Bytes) : List Action :=
  [.connect,.connect,.accept (.fd 4),.accept (.fd 5),.peer 0 (.data first),.peer 1 (.data second),.accept .again] ++
  List.replicate 6 (.turn (some MAXLINE))

theorem isolation_exact_pass : ∃ s, run (step 3) (initial 3) (onePass [97,98] [99,100]) = some s ∧
    ((∀ others, Forall₂ (Alike (sameFor 1)) (onePass [97,98] [99,100]) others →
      ∃ t, run (step 3) (initial 3) others = some t ∧ echoes 1 t = echoes 1 s) ↔
    Every (step 3) (Covers 1) (initial 3) (onePass [97,98] [99,100])) := by
  have ran : (run (step 3) (initial 3) (onePass [97,98] [99,100])).isSome := by decide +kernel
  obtain ⟨s,ran⟩ := Option.isSome_iff_exists.mp ran
  exact ⟨s,ran,isolation_exact ran 1⟩

theorem short_message_leaks :
    Forall₂ (Alike (sameFor 1)) (onePass [97,98] [99]) (onePass [97,120] [99]) ∧
    (run (step 3) (initial 3) (onePass [97,98] [99])).map (fun s => (echoes 1 s).map (List.take 3)) =
      some [[99,98,0]] ∧
    (run (step 3) (initial 3) (onePass [97,120] [99])).map (fun s => (echoes 1 s).map (List.take 3)) =
      some [[99,120,0]] := by
  refine ⟨?_,by decide +kernel,by decide +kernel⟩
  have data : EventAlike (sameFor 1 0) (.data [97,98]) (.data [97,120]) :=
    .data (.cons (fun _ => rfl) (.cons (fun other => absurd other (by decide)) .nil))
  have own : EventAlike (sameFor 1 1) (.data [99]) (.data [99]) := .data (.cons (fun _ => rfl) .nil)
  refine .cons .connect (.cons .connect (.cons .accept (.cons .accept (.cons (.peer data) (.cons (.peer own)
    (.cons .accept ?_))))))
  exact List.forall₂_same.mpr fun _ member => by rw [List.eq_of_mem_replicate member]; exact .turn

end NetworkEx.EchoIsolation
