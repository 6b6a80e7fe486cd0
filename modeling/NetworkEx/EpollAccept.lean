import NetworkEx.EpollRepresentation

namespace NetworkEx.EpollAccept
open ByteStreams CText ChatSockets TransitionRuns EpollChat EpollRepresentation

def clientfd : Option (Nat × Nat) → Int
  | none => -1
  | some (fd,_) => fd

-- The indices of user_fds that one step uses: the answer of accept, the fd of
-- the block that is freed, and i in send_msg. A block that is gone has no fd.
def indices (s : State) : Action → List (Option Int)
  | .handle accepted =>
    match s.pc with
    | .batch (.listen :: _) => [some (clientfd accepted)]
    | _ => (frees s (.handle accepted)).map fun addr => (s.heap addr).map fun user => (user.fd : Int)
  | .write =>
    match s.pc with
    | .broadcast _ _ i _ => if i < maxClients then [some (i : Int)] else []
    | _ => []
  | _ => []

def Bounded (s : State) (action : Action) : Prop :=
  ∀ index ∈ indices s action, ∃ i : Nat, index = some (i : Int) ∧ i < maxClients

-- The three tables that the accept branch updates, with the fd of a block as
-- the int that it is.
structure Tables where
  userFds : Nat → Int
  heap : Nat → Option (Int × Bytes)
  interest : Nat → Option Nat

def tables (s : State) : Tables :=
  ⟨s.userFds,fun addr => (s.heap addr).map fun user => ((user.fd : Int),user.name),s.interest⟩

-- The branch after accept, for every clientfd. A store outside user_fds goes
-- to other memory, and epoll_ctl refuses a negative descriptor.
def registerUser (t : Tables) (clientfd : Int) (addr : Nat) : Tables where
  userFds := if 0 ≤ clientfd ∧ clientfd < maxClients then Function.update t.userFds clientfd.toNat 1 else t.userFds
  heap := Function.update t.heap addr (some (clientfd,ascii "user(" ++ decimal clientfd ++ ascii ")"))
  interest := if 0 ≤ clientfd then Function.update t.interest clientfd.toNat (some addr) else t.interest

-- A failing accept changes none of them, whatever address malloc returns.
def Intact (s : State) : Action → Prop
  | .handle none => ∀ rest addr, s.pc = .batch (.listen :: rest) → s.heap addr = none →
      registerUser (tables s) (clientfd none) addr = tables s
  | _ => True

theorem accepts_registers (small : fd < maxClients) (ran : acceptClient listenfd s rest (some (fd,addr)) = some next) :
    tables next = registerUser (tables s) (clientfd (some (fd,addr))) addr := by
  have inside : 0 ≤ (fd : Int) ∧ (fd : Int) < maxClients := by omega
  unfold acceptClient at ran
  dsimp only at ran
  split at ran
  · cases ran
  · split at ran
    · cases ran
      have heap : (fun known => (Function.update s.heap addr (some ⟨fd,userName fd⟩) known).map fun user => ((user.fd : Int),user.name)) =
          Function.update (fun known => (s.heap known).map fun user => ((user.fd : Int),user.name)) addr
            (some ((fd : Int),userName fd)) := by
        funext known
        by_cases equal : known = addr
        · subst equal
          simp
        · simp [Function.update_of_ne equal]
      simp only [tables,registerUser,clientfd,inside.1,inside.2,and_self,if_true,Int.toNat_natCast]
      rw [heap]
      rfl
    · cases ran

-- The block is taken before anything looks at clientfd, so it stays behind.
theorem failing_accept_leaks (unused : s.heap addr = none) : registerUser (tables s) (clientfd none) addr ≠ tables s := by
  intro same
  have block := congrFun (congrArg Tables.heap same) addr
  simp [registerUser,tables,unused] at block

theorem bounded_listen (here : s.pc = .batch (.listen :: rest)) : Bounded s (.handle accepted) ↔ Granted s (.handle accepted) := by
  simp only [Bounded,indices,here,List.mem_singleton,forall_eq,Option.some.injEq]
  constructor
  · intro ⟨i,answered,small⟩ _ _
    cases accepted with
    | none => exact absurd answered (by simp only [clientfd]; omega)
    | some pair =>
      obtain ⟨fd,addr⟩ := pair
      have same : fd = i := Int.ofNat.inj answered
      exact ⟨fd,addr,rfl,same ▸ small⟩
  · intro granted
    obtain ⟨fd,addr,rfl,small⟩ := granted rest here
    exact ⟨fd,rfl,small⟩

-- The descriptor in a live block came from an accept that was inside.
theorem bounded_frees (valid : Tracked s) (here : s.pc = .batch (.ptr addr :: rest)) : Bounded s (.handle accepted) := by
  intro index used
  simp only [indices,here,List.mem_map] at used
  obtain ⟨freed,member,rfl⟩ := used
  obtain ⟨user,block⟩ := valid.held addr (by rw [here]; exact List.mem_cons_self)
  have only : freed = addr := by
    simp only [frees,here] at member
    split at member
    · cases member
    · exact List.mem_singleton.mp member
  exact ⟨user.fd,by rw [only,block]; rfl,(valid.named addr user block).2⟩

theorem bounded_write (s : State) : Bounded s .write := by
  intro index used
  simp only [indices] at used
  split at used
  · rename_i addr text i rest looping
    by_cases inside : i < maxClients
    · rw [if_pos inside,List.mem_singleton] at used
      exact ⟨i,used,inside⟩
    · rw [if_neg inside] at used
      cases used
  · cases used

theorem bounded_exact (valid : Tracked s) (action : Action) : Bounded s action ↔ Granted s action := by
  cases action with
  | handle accepted =>
    cases stands : s.pc with
    | batch events =>
      cases events with
      | nil => 
        refine iff_of_true ?_ (fun rest here => by rw [stands] at here; cases here)
        intro index used
        simp [indices,stands,frees] at used
      | cons event rest =>
        cases event with
        | listen => exact bounded_listen stands
        | ptr addr =>
          exact iff_of_true (bounded_frees valid stands) (fun rest here => by rw [stands] at here; cases here)
    | _ =>
      refine iff_of_true ?_ (fun rest here => by rw [stands] at here; cases here)
      intro index used
      simp [indices,stands,frees] at used
  | write => exact iff_of_true (bounded_write s) trivial
  | _ => exact iff_of_true (fun index used => by cases used) trivial

theorem intact_of_granted (granted : Granted s action) : Intact s action := by
  cases action with
  | handle accepted =>
    cases accepted with
    | none =>
      intro rest addr here _
      obtain ⟨fd,_,failed,_⟩ := granted rest here
      cases failed
    | some pair => trivial
  | _ => trivial

theorem tracked_along (s : State) (action : Action) (next : State) (valid : Tracked s)
    (ran : step listenfd s action = some next) : Tracked next := tracked_preserved valid (step_sound ran)

theorem epoll_accept_exact (listenfd : Nat) (actions : List Action) :
    (Every (step listenfd) Bounded initial actions ∧ Every (step listenfd) Intact initial actions) ↔
    Every (step listenfd) Granted initial actions := by
  have indexed : Every (step listenfd) Bounded initial actions ↔ Every (step listenfd) Granted initial actions :=
    every_congr tracked_along (fun s action valid => bounded_exact valid action) initial_tracked
  constructor
  · intro both
    exact indexed.mp both.1
  · intro granted
    have keeps : ∀ s action next, Tracked s → Granted s action → step listenfd s action = some next → Tracked next :=
      fun s action next valid _ ran => tracked_along s action next valid ran
    exact ⟨indexed.mpr granted,every_of_preserves keeps (fun _ _ _ held => intact_of_granted held) initial_tracked granted⟩

def withdrawn : List Action := [.connect,.epollWait [none],.handle none]

theorem failing_accept_used :
    (run (step 3) initial withdrawn).isSome ∧ ¬ Every (step 3) Bounded initial withdrawn ∧
    ¬ Every (step 3) Intact initial withdrawn := by
  refine ⟨by decide +kernel,?_,?_⟩
  · intro all
    have bounded := ((all.2 _ rfl).2 _ rfl).1
    obtain ⟨i,answered,_⟩ := bounded (some (-1)) (by decide)
    have negative := Option.some.inj answered
    omega
  · intro all
    have intact := ((all.2 _ rfl).2 _ rfl).1
    exact failing_accept_leaks rfl (intact [] 100 rfl rfl)

end NetworkEx.EpollAccept
