import Mathlib.Algebra.BigOperators.Group.Finset.Piecewise
import Mathlib.Algebra.BigOperators.Ring.Finset
import NetworkEx.EpollDrain
import NetworkEx.EpollRoom

namespace NetworkEx.EpollDelivery
open ByteStreams CText ChatSockets ProcessTable TransitionRuns GroupBroadcast ChatRoom EpollRoom
open ChatRelay (Quiet)
open EpollDrain (share sent Drained)
open EpollRepresentation (Owned)

variable {ι : Type w}

-- Nobody types another line, connects, leaves or is cut off: what is on its way
-- comes through, the programs take their turns, select reports a socket that has
-- something to read, and the kernel has room for all that is written.
def Delivers (r : Room ι EpollChat.State) : Action ι EpollChat.Action → Prop
  | .dial _ => False
  | .user i (.select socket stdin) => socket = true ∧ stdin = false ∧ r.down i ≠ []
  | .user _ (.read result _) => result.isSome = true
  | .user i (.write answer) => answer = some (r.users i).readn
  | .pending _ event | .peer _ event => ∃ bytes, event = .data bytes
  | .main _ => True

-- What a byte on its way to the server costs, and a client with a read of its
-- keyboard before it.
def fare : Nat := share + 1

def pause (stdin : Bool) : Nat := if stdin then fare * ChatRelay.MAXLINE + 5 else 0

def userLeft (u : ChatRelay.State) : Nat :=
  match u.pc with
  | .select => 3
  | .readSocket stdin => 2 + pause stdin
  | .writeOut stdin => 5 + pause stdin
  | .readStdin => pause true
  | .writeSocket => fare * u.readn + 4
  | .stopped => 0

def clientLeft (r : Room ι EpollChat.State) (i : ι) : Nat :=
  4 * (r.down i).length + fare * (r.up i).length + userLeft (r.users i)

def left (clients : Finset ι) (r : Room ι EpollChat.State) : Nat :=
  EpollDrain.left r.server + ∑ i ∈ clients, clientLeft r i

theorem write_whole (u : ChatRelay.State) (fd : ChatRelay.Fd) (onward : ChatRelay.Pc) :
    ChatRelay.write u fd (some u.readn) onward =
      some {u with pc := onward,calls := u.calls ++ [⟨fd,u.buf.take u.readn,some u.readn⟩]} := by
  simp [ChatRelay.write]

theorem nextPc_left (u : ChatRelay.State) (stdin : Bool) :
    userLeft {u with pc := ChatRelay.nextPc stdin} < 5 + pause stdin := by
  cases stdin with
  | false =>
    show 3 < 5 + 0
    omega
  | true =>
    show pause true < 5 + pause true
    omega

-- What a client's program does costs less than what it takes from the network,
-- with what it puts there.
theorem user_drops {r : Room ι EpollChat.State} (delivers : Delivers r (.user i action))
    (moved : ChatRelay.step (r.users i) action = some user) :
    userLeft user + fare * (put (r.users i) action).length < userLeft (r.users i) + 4 * (heard (r.users i) action).length := by
  cases action with
  | select socket stdin =>
    obtain ⟨rfl,rfl,_⟩ := delivers
    simp only [ChatRelay.step] at moved
    split at moved
    · rename_i here
      cases moved
      simp [userLeft,here,put,heard,pause]
    · cases moved
  | read result beyond =>
    obtain ⟨piece,rfl⟩ := Option.isSome_iff_exists.mp delivers
    have some_ : 0 < piece.val.length := piece.property.1
    simp only [ChatRelay.step] at moved
    split at moved
    · rename_i stdin here
      cases moved
      simp only [userLeft,here,put,heard,List.length_nil]
      omega
    · rename_i here
      cases moved
      have fits : fare * piece.val.length ≤ fare * ChatRelay.MAXLINE := Nat.mul_le_mul_left fare piece.property.2
      simp only [userLeft,here,put,heard,List.length_nil,pause,if_true]
      omega
    · cases moved
  | write answer =>
    have whole : answer = some (r.users i).readn := delivers
    subst whole
    simp only [ChatRelay.step] at moved
    split at moved
    · rename_i stdin here
      rw [write_whole] at moved
      cases moved
      have less := nextPc_left (r.users i) stdin
      simp only [userLeft,here,put,heard,List.length_nil] at less ⊢
      omega
    · rename_i here
      rw [write_whole] at moved
      cases moved
      have taken : (put (r.users i) (.write (some (r.users i).readn))).length ≤ (r.users i).readn := by
        simp only [put,here,Option.getD_some]
        exact List.length_take_le _ _
      have paid := Nat.mul_le_mul_left fare taken
      simp only [userLeft,here,heard,List.length_nil]
      omega
    · cases moved

theorem user_left [DecidableEq ι] {r : Room ι EpollChat.State} {clients : Finset ι} (known : i ∈ clients)
    (delivers : Delivers r (.user i action)) (front : heard (r.users i) action <+: r.down i)
    (moved : ChatRelay.step (r.users i) action = some user) :
    left clients {r with
      users := Function.update r.users i user
      up := Function.update r.up i (r.up i ++ put (r.users i) action)
      down := Function.update r.down i ((r.down i).drop (heard (r.users i) action).length)} < left clients r := by
  have drops := user_drops delivers moved
  have inside := front.length_le
  let next : Room ι EpollChat.State := {r with
    users := Function.update r.users i user
    up := Function.update r.up i (r.up i ++ put (r.users i) action)
    down := Function.update r.down i ((r.down i).drop (heard (r.users i) action).length)}
  have sums := sum_change (clientLeft r) (clientLeft next) known
    (fun other different => by simp [clientLeft,next,Function.update_of_ne different])
  have mine : clientLeft next i < clientLeft r i := by
    simp only [clientLeft,next,Function.update_self,List.length_append,List.length_drop,Nat.mul_add]
    omega
  show EpollDrain.left r.server + ∑ j ∈ clients, clientLeft next j < _
  unfold left
  omega

theorem carried_left [DecidableEq ι] {r : Room ι EpollChat.State} {clients : Finset ι} (known : i ∈ clients)
    (some_ : bytes ≠ []) (front : bytes <+: r.up i)
    (more : EpollDrain.left server = EpollDrain.left r.server + share * bytes.length) :
    left clients {r with server,up := Function.update r.up i ((r.up i).drop bytes.length)} < left clients r := by
  have brought := List.length_pos_iff.mpr some_
  let next : Room ι EpollChat.State := {r with server,up := Function.update r.up i ((r.up i).drop bytes.length)}
  have sums := sum_change (clientLeft r) (clientLeft next) known
    (fun other different => by simp [clientLeft,next,Function.update_of_ne different])
  have length : bytes.length + ((r.up i).drop bytes.length).length = (r.up i).length := by
    have inside := front.length_le
    rw [List.length_drop]
    omega
  have cost : fare * (r.up i).length = share * bytes.length + bytes.length + fare * ((r.up i).drop bytes.length).length := by
    rw [← length,Nat.mul_add]
    unfold fare
    rw [Nat.succ_mul]
  have mine : clientLeft next i + (share * bytes.length + bytes.length) = clientLeft r i := by
    simp only [clientLeft,next,Function.update_self]
    omega
  show EpollDrain.left server + ∑ j ∈ clients, clientLeft next j < _
  unfold left
  omega

theorem routed_total [DecidableEq ι] (owner : Nat → Option ι) (clients : Finset ι) (texts : List (Nat × Bytes)) :
    ∑ i ∈ clients, (routed owner texts i).flatten.length ≤ (texts.map fun entry => entry.2.length).sum := by
  induction texts with
  | nil => simp [routed]
  | cons entry rest ih =>
    have first : ∑ i ∈ clients, (if owner entry.1 = some i then entry.2.length else 0) ≤ entry.2.length := by
      cases who : owner entry.1 with
      | none => simp
      | some j =>
        simp only [Option.some.injEq,Finset.sum_ite_eq]
        split
        · exact Nat.le_refl _
        · exact Nat.zero_le _
    have split : ∀ i, (routed owner (entry :: rest) i).flatten.length =
        (if owner entry.1 = some i then entry.2.length else 0) + (routed owner rest i).flatten.length := by
      intro i
      by_cases here : owner entry.1 = some i <;> simp [routed,here]
    simp only [split,Finset.sum_add_distrib,List.map_cons,List.sum_cons]
    omega

theorem main_left [DecidableEq ι] {r : Room ι EpollChat.State} {clients : Finset ι} (owned : Owned r.server)
    (main : mains action = true) (ran : EpollChat.step listenfd r.server action = some server) :
    left clients (moved (service listenfd) r action server) < left clients r := by
  have own : EpollDrain.Own action := by cases action <;> trivial
  have drops := EpollDrain.main_drops owned own ran
  obtain ⟨fresh,writes⟩ := change_writes (change_stepped (EpollChat.step_sound ran) main)
  have writes : server.writes = r.server.writes ++ fresh := writes
  have texts : server.writes.drop r.server.writes.length = fresh := by rw [writes,List.drop_left]
  have total : sent server = sent r.server + (fresh.map fun entry => entry.2.length).sum := by
    simp [sent,writes]
  have routes := routed_total r.owner clients fresh
  have grown : ∀ i, clientLeft (moved (service listenfd) r action server) i =
      clientLeft r i + 4 * (routed r.owner fresh i).flatten.length := by
    intro i
    have down : (moved (service listenfd) r action server).down i = r.down i ++ (routed r.owner fresh i).flatten := by
      rw [← texts]
      rfl
    simp only [clientLeft,down,List.length_append]
    simp only [moved]
    omega
  show EpollDrain.left server + ∑ i ∈ clients, clientLeft (moved (service listenfd) r action server) i < _
  simp only [grown,Finset.sum_add_distrib,← Finset.mul_sum]
  unfold left
  omega

section Rooms

variable [DecidableEq ι] {r next : Room ι EpollChat.State} {clients : Finset ι} {i : ι}

theorem data_some (moved : Conn.peer c (.data bytes) = some d) : bytes ≠ [] := (peer_data moved).1

theorem delivers_drops (valid : Valid (service listenfd) Owned r) (known : ∀ i, r.dialled i = true → i ∈ clients)
    (delivers : Delivers r action) (stepped : step (service listenfd) r action = some next) : left clients next < left clients r := by
  cases action with
  | dial i => exact delivers.elim
  | user i action =>
    obtain ⟨⟨here,front⟩,rest⟩ := Option.ite_none_right_eq_some.mp stepped
    obtain ⟨user,moved,rfl⟩ := Option.map_eq_some_iff.mp rest
    exact user_left (known i here) delivers front moved
  | pending k event =>
    obtain ⟨bytes,rfl⟩ := delivers
    obtain ⟨i,who,carried⟩ := Option.bind_eq_some_iff.mp stepped
    obtain ⟨server,front,moved,rfl⟩ := carry_parts carried
    obtain ⟨_,c,d,_,peer,_⟩ := (service_lawful listenfd).pends r.server k (.data bytes) server moved
    have here := known i (valid.seats.queued i (List.mem_of_getElem? who))
    have ran : EpollChat.step listenfd r.server (.pendingPeer k (.data bytes)) = some server := moved
    exact carried_left here (data_some peer) front (EpollDrain.left_pending ran)
  | peer fd event =>
    obtain ⟨bytes,rfl⟩ := delivers
    obtain ⟨i,who,carried⟩ := Option.bind_eq_some_iff.mp stepped
    obtain ⟨server,front,moved,rfl⟩ := carry_parts carried
    obtain ⟨_,c,d,_,peer,_⟩ := (service_lawful listenfd).peers r.server fd (.data bytes) server moved
    have here := known i (valid.seats.seated fd i who)
    have ran : EpollChat.step listenfd r.server (.peer fd (.data bytes)) = some server := moved
    exact carried_left here (data_some peer) front (EpollDrain.left_peer valid.inv ran)
  | main action =>
    obtain ⟨main,rest⟩ := Option.ite_none_right_eq_some.mp stepped
    obtain ⟨server,moved,rfl⟩ := Option.map_eq_some_iff.mp rest
    exact main_left valid.inv main moved

theorem dialled_kept (delivers : Delivers r action) (stepped : step (service listenfd) r action = some next) :
    next.dialled = r.dialled := by
  cases action with
  | dial i => exact delivers.elim
  | user i action =>
    obtain ⟨_,rest⟩ := Option.ite_none_right_eq_some.mp stepped
    obtain ⟨user,_,rfl⟩ := Option.map_eq_some_iff.mp rest
    rfl
  | pending k event | peer k event =>
    obtain ⟨i,_,carried⟩ := Option.bind_eq_some_iff.mp stepped
    obtain ⟨server,_,_,rfl⟩ := carry_parts carried
    rfl
  | main action =>
    obtain ⟨_,rest⟩ := Option.ite_none_right_eq_some.mp stepped
    obtain ⟨server,_,rfl⟩ := Option.map_eq_some_iff.mp rest
    rfl

theorem run_clients (ran : run (step (service listenfd)) (opening (service listenfd)) actions = some r) :
    ∃ clients : Finset ι, ∀ i, r.dialled i = true → i ∈ clients := by
  let Few (r : Room ι EpollChat.State) : Prop := ∃ clients : Finset ι, ∀ i, r.dialled i = true → i ∈ clients
  have keeps : ∀ r action next, Few r → step (service listenfd) r action = some next → Few next := by
    rintro r action next ⟨clients,known⟩ stepped
    cases action with
    | dial i =>
      obtain ⟨_,rest⟩ := Option.ite_none_left_eq_some.mp stepped
      obtain ⟨server,_,rfl⟩ := Option.map_eq_some_iff.mp rest
      refine ⟨insert i clients,?_⟩
      intro j here
      by_cases same : j = i
      · rw [same]
        exact Finset.mem_insert_self i clients
      · have before : Function.update r.dialled i true j = true := here
        rw [Function.update_of_ne same] at before
        exact Finset.mem_insert_of_mem (known j before)
    | user i action =>
      obtain ⟨_,rest⟩ := Option.ite_none_right_eq_some.mp stepped
      obtain ⟨user,_,rfl⟩ := Option.map_eq_some_iff.mp rest
      exact ⟨clients,known⟩
    | pending k event | peer k event =>
      obtain ⟨i,_,carried⟩ := Option.bind_eq_some_iff.mp stepped
      obtain ⟨server,_,_,rfl⟩ := carry_parts carried
      exact ⟨clients,known⟩
    | main action =>
      obtain ⟨_,rest⟩ := Option.ite_none_right_eq_some.mp stepped
      obtain ⟨server,_,rfl⟩ := Option.map_eq_some_iff.mp rest
      exact ⟨clients,known⟩
  have begun : Few (opening (service listenfd)) := ⟨∅,nofun⟩
  have held : Few r := run_invariant keeps begun ran
  exact held

def Rest (listenfd : Nat) (r : Room ι EpollChat.State) : Prop :=
  ∀ action, Delivers r action → step (service listenfd) r action = none

theorem rest_server (valid : Valid (service listenfd) Owned r) (ready : EpollDrain.Ready r.server) (rest : Rest listenfd r)
    (live : r.server.pc.live = true) : Drained r.server := by
  have stuck : EpollDrain.Stuck (fun _ _ => False) listenfd r.server := by
    intro action ⟨own,_⟩
    have main : mains action = true := by cases action <;> trivial
    have halted := rest (.main action) trivial
    have allowed : (service listenfd).mains action = true := main
    simp only [step,allowed,if_true,Option.map_eq_none_iff] at halted
    exact halted
  rcases (EpollDrain.stuck_iff _ listenfd valid.inv ready).mp stuck live with drained | ⟨_,_,_,_,_,_,_,_,_,_,never⟩
  · exact drained
  · exact never.elim

theorem rest_up (rest : Rest listenfd r) (live : r.server.pc.live = true)
    (who : r.owner fd = some i) (opened : r.server.conns fd = some ⟨[],false,false⟩) : r.up i = [] := by
  by_contra some_
  have halted := rest (.peer fd (.data (r.up i))) ⟨_,rfl⟩
  have front : PeerEvent.bytes (.data (r.up i)) <+: r.up i := List.prefix_rfl
  have comes : Conn.peer ⟨[],false,false⟩ (.data (r.up i)) = some ⟨[] ++ r.up i,false,false⟩ := by simp [Conn.peer,some_]
  simp only [step,who,Option.bind_some,carry,front,if_true,Option.map_eq_none_iff] at halted
  simp [service,EpollChat.step,live,opened,comes] at halted

theorem rest_user (rest : Rest listenfd r) (here : r.dialled i = true) (action : ChatRelay.Action) (delivers : Delivers r (.user i action))
    (front : heard (r.users i) action <+: r.down i) : ChatRelay.step (r.users i) action = none := by
  have halted := rest (.user i action) delivers
  simp only [step,here,front,and_self,if_true,Option.map_eq_none_iff] at halted
  exact halted

def oneByte (b : UInt8) : Piece ChatRelay.MAXLINE := ⟨[b],Nat.succ_le_of_lt (Nat.lt_succ_self 0),Nat.succ_le_of_lt (by decide)⟩

theorem rest_client (rest : Rest listenfd r) (here : r.dialled i = true) (running : (r.users i).pc ≠ .stopped) :
    Quiet (r.users i).pc ∧ r.down i = [] := by
  have nothing : ∀ u : ChatRelay.State, ∀ n, heard u (.write (some n)) <+: r.down i := fun u n => List.nil_prefix
  cases place : (r.users i).pc with
  | stopped => exact absurd place running
  | writeOut stdin | writeSocket =>
    have halted := rest_user rest here (.write (some (r.users i).readn)) rfl (nothing _ _)
    simp [ChatRelay.step,ChatRelay.write,place] at halted
  | readStdin =>
    have front : heard (r.users i) (.read (some (oneByte 10)) []) <+: r.down i := by
      simp only [heard,place]
      exact List.nil_prefix
    have halted := rest_user rest here (.read (some (oneByte 10)) []) rfl front
    simp [ChatRelay.step,place] at halted
  | select =>
    refine ⟨trivial,?_⟩
    by_contra some_
    have front : heard (r.users i) (.select true false) <+: r.down i := List.nil_prefix
    have halted := rest_user rest here (.select true false) ⟨rfl,rfl,some_⟩ front
    simp [ChatRelay.step,place] at halted
  | readSocket stdin =>
    refine ⟨trivial,?_⟩
    by_contra some_
    obtain ⟨b,later,whole⟩ := List.exists_cons_of_ne_nil some_
    have front : heard (r.users i) (.read (some (oneByte b)) []) <+: r.down i := by
      simp only [heard,place,whole]
      exact ⟨later,rfl⟩
    have halted := rest_user rest here (.read (some (oneByte b)) []) rfl front
    simp [ChatRelay.step,place] at halted

structure Connected (r : Room ι EpollChat.State) (i : ι) : Prop where
  running : (r.users i).pc ≠ .stopped
  linked : Linked (view r.server) r.queue r.owner i

omit [DecidableEq ι] in
theorem user_running (delivers : Delivers r (.user i action)) (moved : ChatRelay.step (r.users i) action = some user) :
    user.pc ≠ .stopped := by
  have onward : ∀ stdin, ChatRelay.nextPc stdin ≠ .stopped := by
    intro stdin
    cases stdin <;> simp [ChatRelay.nextPc]
  cases action with
  | select socket stdin =>
    obtain ⟨rfl,rfl,_⟩ := delivers
    simp only [ChatRelay.step] at moved
    split at moved
    · cases moved
      simp
    · cases moved
  | read result beyond =>
    obtain ⟨piece,rfl⟩ := Option.isSome_iff_exists.mp delivers
    simp only [ChatRelay.step] at moved
    split at moved
    · cases moved
      simp
    · cases moved
      simp
    · cases moved
  | write answer =>
    have whole : answer = some (r.users i).readn := delivers
    subst whole
    simp only [ChatRelay.step] at moved
    split at moved
    · rw [write_whole] at moved
      cases moved
      exact onward _
    · rw [write_whole] at moved
      cases moved
      simp
    · cases moved

-- Main closes a descriptor only after a read of it that brought the end or an error.
omit [DecidableEq ι] in
theorem lost_gone (stepped : EpollChat.Stepped listenfd s action after) (here : s.conns fd = some c) (gone : after.conns fd = none) :
    c.closed = true ∨ c.failed = true := by
  have still : ∀ (k : Nat) (d : Conn), Function.update s.conns k (some d) fd ≠ none :=
    fun k d => Option.isSome_iff_ne_none.mp (isSome_update.mpr (.inr (by rw [here]; rfl)))
  cases stepped with
  | connect | pendingPeer | epollWait | acceptFails | overindexes | usesFreed | skips | breaks | writes | finishes =>
    cases here.symm.trans gone
  | peer | accepts | overreads | reads => exact absurd gone (still _ _)
  | removes served block ended =>
    rename_i user accepted addr rest
    by_cases equal : fd = user.fd
    · subst equal
      rcases ended with closed | ⟨d,opened,nothing⟩
      · cases here.symm.trans closed
      · cases here.symm.trans opened
        exact read_gone nothing
    · have kept : s.conns fd = none := (Function.update_of_ne equal _ _).symm.trans gone
      cases here.symm.trans kept

theorem connected_kept (valid : Valid (service listenfd) Owned r) (connected : Connected r i) (delivers : Delivers r action)
    (stepped : step (service listenfd) r action = some next) : Connected next i := by
  obtain ⟨running,linked⟩ := connected
  cases action with
  | dial j => exact delivers.elim
  | user j action =>
    obtain ⟨_,rest⟩ := Option.ite_none_right_eq_some.mp stepped
    obtain ⟨user,moved,rfl⟩ := Option.map_eq_some_iff.mp rest
    refine ⟨?_,linked⟩
    show (Function.update r.users j user i).pc ≠ .stopped
    by_cases equal : i = j
    · subst equal
      rw [Function.update_self]
      exact user_running delivers moved
    · rw [Function.update_of_ne equal]
      exact running
  | pending k event =>
    obtain ⟨bytes,rfl⟩ := delivers
    obtain ⟨j,_,carried⟩ := Option.bind_eq_some_iff.mp stepped
    obtain ⟨server,_,moved,rfl⟩ := carry_parts carried
    obtain ⟨_,c,d,found,peer,after⟩ := (service_lawful listenfd).pends r.server k (.data bytes) server moved
    have after : view server = {view r.server with backlog := (view r.server).backlog.set k d} := after
    obtain ⟨_,_,_,rfl⟩ := peer_data peer
    refine ⟨running,?_⟩
    rw [after]
    exact linked_pends found rfl rfl linked
  | peer fd event =>
    obtain ⟨bytes,rfl⟩ := delivers
    obtain ⟨j,_,carried⟩ := Option.bind_eq_some_iff.mp stepped
    obtain ⟨server,_,moved,rfl⟩ := carry_parts carried
    obtain ⟨_,c,d,found,peer,after⟩ := (service_lawful listenfd).peers r.server fd (.data bytes) server moved
    have after : view server = {view r.server with conns := Function.update (view r.server).conns fd (some d)} := after
    obtain ⟨_,_,_,rfl⟩ := peer_data peer
    refine ⟨running,?_⟩
    rw [after]
    exact linked_changes found rfl rfl linked
  | main action =>
    obtain ⟨main,rest⟩ := Option.ite_none_right_eq_some.mp stepped
    obtain ⟨server,moved,rfl⟩ := Option.map_eq_some_iff.mp rest
    have ran := EpollChat.step_sound moved
    exact ⟨running,linked_onward valid.seats (change_stepped ran main) (fun fd c => lost_gone ran) linked⟩

structure Kept (listenfd : Nat) (clients : Finset ι) (r : Room ι EpollChat.State) : Prop where
  valid : Valid (service listenfd) Owned r
  ready : EpollDrain.Ready r.server
  known : ∀ i, r.dialled i = true → i ∈ clients

theorem kept_onward (kept : Kept listenfd clients r) (delivers : Delivers r action)
    (stepped : step (service listenfd) r action = some next) : Kept listenfd clients next := by
  refine ⟨valid_preserved (service_lawful listenfd) kept.valid stepped,?_,?_⟩
  · rcases server_step stepped with same | ⟨other,moved⟩
    · rw [same]
      exact kept.ready
    · exact EpollDrain.ready_preserved kept.valid.inv kept.ready (EpollChat.step_sound moved)
  · rw [dialled_kept delivers stepped]
    exact kept.known

theorem run_kept (ran : run (step (service listenfd)) (opening (service listenfd)) actions = some r) :
    ∃ clients, Kept listenfd clients r := by
  obtain ⟨clients,known⟩ := run_clients ran
  have valid := run_valid (service_lawful listenfd) ran
  let Fine (s : EpollChat.State) : Prop := Owned s ∧ EpollDrain.Ready s
  have keeps : ∀ s action next, Fine s → EpollChat.step listenfd s action = some next → Fine next :=
    fun s action next fine moved => ⟨EpollRepresentation.owned_preserved fine.1 (EpollChat.step_sound moved),
      EpollDrain.ready_preserved fine.1 fine.2 (EpollChat.step_sound moved)⟩
  have begun : Fine EpollChat.initial := ⟨EpollRepresentation.initial_owned,nofun⟩
  have fine : Fine r.server := by
    refine run_server ?_ ?_ ran
    · exact begun
    · exact keeps
  exact ⟨clients,valid,fine.2,known⟩

-- A connected client at the end has been heard to the last byte, and has on its
-- output all that was sent round for it.
theorem rest_whole (kept : Kept listenfd clients r) (rest : Rest listenfd r) (live : r.server.pc.live = true)
    (connected : Connected r i) : screen r i = transcript r.log i ∧ saidBy r.log i = (r.users i).typed := by
  have drained := rest_server kept.valid kept.ready rest live
  obtain ⟨c,held,opened,whole⟩ := connected.linked
  have here := held_dialled kept.valid.seats held
  obtain ⟨quiet,down⟩ := rest_client rest here connected.running
  cases held with
  | waits k who what =>
    have empty : (view r.server).backlog = [] := drained.backlog
    rw [empty] at what
    cases what
  | serves fd who what =>
    have idle := drained.idle fd c what
    subst idle
    have nothing : EpollOrder.owed r.server fd = [] := by simp [EpollOrder.owed,drained.waiting]
    have up := rest_up rest live who what
    rw [← texts_transcript listenfd]
    exact seat_whole kept.valid live who what rfl nothing up down quiet connected.running

theorem run_connected (kept : Kept listenfd clients r) (connected : Connected r i)
    (delivers : Every (step (service listenfd)) Delivers r more) (ran : run (step (service listenfd)) r more = some t) :
    Kept listenfd clients t ∧ Connected t i := by
  let Both (r : Room ι EpollChat.State) : Prop := Kept listenfd clients r ∧ Connected r i
  have onward : ∀ r action next, Both r → Delivers r action → step (service listenfd) r action = some next → Both next :=
    fun _ _ _ both delivers stepped => ⟨kept_onward both.1 delivers stepped,connected_kept both.1.valid both.2 delivers stepped⟩
  have begun : Both r := ⟨kept,connected⟩
  have both : Both t := run_preserves onward begun delivers ran
  exact both

-- When nobody types another line, comes or goes, all that is under way arrives after a
-- bounded number of steps, in whichever order they are taken. Then, unless the server
-- is gone, every client who was connected and running has been heard to the last byte
-- and has written out every message that was meant for it, whole and in the order of the log.
theorem epoll_delivers (ran : run (step (service listenfd)) (opening (service listenfd)) actions = some r) :
    (∃ more t, Every (step (service listenfd)) Delivers r more ∧ run (step (service listenfd)) r more = some t ∧ Rest listenfd t) ∧
    (∃ clients : Finset ι, ∀ more t, Every (step (service listenfd)) Delivers r more →
      run (step (service listenfd)) r more = some t → more.length ≤ left clients r) ∧
    ∀ more t, Every (step (service listenfd)) Delivers r more → run (step (service listenfd)) r more = some t →
      Rest listenfd t → t.server.pc.live = true →
        ∀ i, Connected r i → screen t i = transcript t.log i ∧ saidBy t.log i = (t.users i).typed := by
  obtain ⟨clients,kept⟩ := run_kept ran
  have keeps : ∀ r action next, Kept listenfd clients r → Delivers r action → step (service listenfd) r action = some next →
      Kept listenfd clients next := fun _ _ _ kept delivers stepped => kept_onward kept delivers stepped
  have drops : ∀ r action next, Kept listenfd clients r → Delivers r action → step (service listenfd) r action = some next →
      left clients next < left clients r := fun _ _ _ kept delivers stepped => delivers_drops kept.valid kept.known delivers stepped
  refine ⟨every_settles keeps drops kept,⟨clients,?_⟩,?_⟩
  · intro more t delivers onward
    have bound := every_bounded keeps drops kept delivers onward
    omega
  · intro more t delivers onward rest live i connected
    obtain ⟨still,connected⟩ := run_connected kept connected delivers onward
    exact rest_whole still rest live connected

end Rooms

theorem epoll_delivers_greeted : ∃ r, run (step (service 3)) (opening (service 3)) greeted = some r ∧
    screen r 0 = ascii "user" ∧ Connected r 0 ∧ ∃ more t, Every (step (service 3)) Delivers r more ∧
      run (step (service 3)) r more = some t ∧ Rest 3 t ∧
        (t.server.pc.live = true → screen t 0 = transcript t.log 0 ∧ saidBy t.log 0 = (t.users 0).typed) := by
  have ends : (run (step (service 3)) (opening (service 3)) greeted).map (fun r => (screen r 0,(r.users 0).pc,r.owner 4,r.server.conns 4)) =
      some (ascii "user",.select,some 0,some ⟨[],false,false⟩) := by decide +kernel
  obtain ⟨r,ran,seen⟩ := Option.map_eq_some_iff.mp ends
  obtain ⟨shown,rest⟩ := Prod.mk.inj seen
  obtain ⟨idle,rest⟩ := Prod.mk.inj rest
  obtain ⟨who,opened⟩ := Prod.mk.inj rest
  have connected : Connected r 0 := ⟨by simp [idle],⟨_,.serves 4 who opened,rfl,rfl⟩⟩
  obtain ⟨⟨more,t,delivers,onward,rests⟩,_,whole⟩ := epoll_delivers ran
  exact ⟨r,ran,shown,connected,more,t,delivers,onward,rests,fun live => whole more t delivers onward rests live 0 connected⟩

end NetworkEx.EpollDelivery
