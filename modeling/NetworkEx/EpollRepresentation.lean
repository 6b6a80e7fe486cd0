import Mathlib.Data.List.Count
import NetworkEx.EpollChat

namespace NetworkEx.EpollRepresentation
open ByteStreams ChatSockets TransitionRuns EpollChat

-- accept and epoll_ctl succeed, with a descriptor below 1024.
def Granted (s : State) : Action → Prop
  | .handle accepted => ∀ rest, s.pc = .batch (.listen :: rest) →
      ∃ fd addr, accepted = some (fd,addr) ∧ fd < maxClients
  | _ => True

-- The blocks that a turn of the batch loop gets from malloc and gives to free.
def mallocs (s : State) : Action → List Nat
  | .handle (some (_,addr)) =>
    match s.pc with
    | .batch (.listen :: _) => [addr]
    | _ => []
  | _ => []

def frees (s : State) : Action → List Nat
  | .handle _ =>
    match s.pc with
    | .batch (.ptr addr :: _) =>
      match ((s.heap addr).bind fun user => s.conns user.fd).map Conn.read with
      | some (.data _) => []
      | _ => [addr]
    | _ => []
  | _ => []

-- The four tables agree: user_fds lists the open clients, each of them has one
-- block of its own, and no event still to come names a block that is gone.
structure Represented (s : State) : Prop where
  listed : ∀ i, s.userFds i = 1 ↔ s.conns i ≠ none
  block : ∀ i, s.conns i ≠ none → ∃! addr, ∃ user, s.heap addr = some user ∧ user.fd = i
  opened : ∀ addr user, s.heap addr = some user → s.conns user.fd ≠ none
  pending : ∀ addr ∈ s.pc.blocks, s.heap addr ≠ none

def FreesOnce (listenfd : Nat) (s : State) (action : Action) : Prop :=
  ∀ next, step listenfd s action = some next → ∀ addr ∈ frees s action,
    s.heap addr ≠ none ∧ next.heap addr = none ∧ addr ∉ next.pc.blocks

-- The only access outside an array is the print of a read that filled its
-- buffer without a NUL: never an index, never a block that was freed.
def Contained (listenfd : Nat) (s : State) (action : Action) : Prop :=
  ∀ next, step listenfd s action = some next → next.pc = .wild → s.pc ≠ .wild →
    ∃ addr rest user c chunk, s.pc = .batch (.ptr addr :: rest) ∧ s.heap addr = some user ∧
      s.conns user.fd = some c ∧ c.read = .data chunk ∧ chunk.length = MAXLINE ∧ 0 ∉ chunk

structure Owned (s : State) : Prop extends Tracked s where
  listed : ∀ i, s.userFds i = 1 ↔ s.conns i ≠ none
  registered : ∀ i, s.conns i ≠ none → ∃ addr, s.interest i = some addr
  mine : ∀ addr user, s.heap addr = some user → s.interest user.fd = some addr ∧ s.conns user.fd ≠ none

theorem initial_owned : Owned initial :=
  ⟨initial_tracked,by simp [initial],by simp [initial],by simp [initial]⟩

theorem owned_socket (valid : Owned s) (opened : s.conns fd = some c)
    (tracked : Tracked {s with pc := pc,conns := Function.update s.conns fd (some after)}) :
    Owned {s with pc := pc,conns := Function.update s.conns fd (some after)} := by
  have same := opened_update opened after
  refine ⟨tracked,?_,?_,?_⟩
  · intro i
    exact (valid.listed i).trans (same i).symm
  · intro i present
    exact valid.registered i ((same i).mp present)
  · intro addr user block
    obtain ⟨registered,present⟩ := valid.mine addr user block
    exact ⟨registered,(same user.fd).mpr present⟩

theorem owned_accept (valid : Owned s) (free : s.conns fd = none) (unused : s.heap addr = none)
    (tracked : Tracked {s with
      pc := pc,backlog := later,conns := Function.update s.conns fd (some c),
      interest := Function.update s.interest fd (some addr),
      heap := Function.update s.heap addr (some ⟨fd,userName fd⟩),userFds := Function.update s.userFds fd 1}) :
    Owned {s with
      pc := pc,backlog := later,conns := Function.update s.conns fd (some c),
      interest := Function.update s.interest fd (some addr),
      heap := Function.update s.heap addr (some ⟨fd,userName fd⟩),userFds := Function.update s.userFds fd 1} := by
  refine ⟨tracked,?_,?_,?_⟩
  · intro i
    by_cases equal : i = fd
    · subst equal; simp
    · simpa [Function.update_of_ne equal] using valid.listed i
  · intro i present
    by_cases equal : i = fd
    · subst equal; exact ⟨addr,by simp⟩
    · simp only [Function.update_of_ne equal] at present ⊢
      exact valid.registered i present
  · intro known user block
    rcases update_found block with ⟨rfl,rfl⟩ | ⟨_,block⟩
    · simp
    · obtain ⟨registered,present⟩ := valid.mine known user block
      have other : user.fd ≠ fd := by
        intro same
        rw [same] at present
        exact present free
      simp only [Function.update_of_ne other]
      exact ⟨registered,present⟩

theorem owned_remove (valid : Owned s) (block : s.heap addr = some user)
    (tracked : Tracked (removeClient s addr user.fd rest)) : Owned (removeClient s addr user.fd rest) := by
  have owner := (valid.mine addr user block).1
  refine ⟨tracked,?_,?_,?_⟩
  · intro i
    by_cases equal : i = user.fd
    · subst equal; simp [removeClient]
    · simpa [removeClient,Function.update_of_ne equal] using valid.listed i
  · intro i present
    by_cases equal : i = user.fd
    · subst equal; simp [removeClient] at present
    · simp only [removeClient,Function.update_of_ne equal] at present ⊢
      exact valid.registered i present
  · intro known other found
    obtain ⟨apart,found⟩ := clear_found found
    obtain ⟨registered,present⟩ := valid.mine known other found
    have different : other.fd ≠ user.fd := by
      intro same
      rw [same,owner] at registered
      exact apart (Option.some.inj registered).symm
    simp only [removeClient,Function.update_of_ne different]
    exact ⟨registered,present⟩

theorem owned_preserved (valid : Owned s) (stepped : Stepped listenfd s action next) : Owned next := by
  have tracked := tracked_preserved valid.toTracked stepped
  cases stepped with
  | peer live opened moved => exact owned_socket valid opened tracked
  | accepts here first other free unused small => exact owned_accept valid free unused tracked
  | overreads here block opened data unprinted => exact owned_socket valid opened tracked
  | reads here block opened data printed => exact owned_socket valid opened tracked
  | removes here block ended => exact owned_remove valid block tracked
  | _ => exact ⟨tracked,valid.listed,valid.registered,valid.mine⟩

theorem owned_represented (valid : Owned s) : Represented s := by
  refine ⟨valid.listed,?_,?_,?_⟩
  · intro i present
    obtain ⟨addr,registered⟩ := valid.registered i present
    obtain ⟨user,block,mine⟩ := valid.owned i addr registered
    refine ⟨addr,⟨user,block,mine⟩,?_⟩
    rintro other ⟨user,block,rfl⟩
    have same := (valid.mine other user block).1
    rw [registered] at same
    exact (Option.some.inj same).symm
  · intro addr user block
    exact (valid.mine addr user block).2
  · intro addr held
    obtain ⟨user,block⟩ := valid.held addr held
    simp [block]

theorem mallocs_of_other (other : ∀ rest, s.pc ≠ .batch (.listen :: rest)) : mallocs s action = [] := by
  unfold mallocs
  split
  · split
    · rename_i rest here; exact absurd here (other rest)
    · rfl
  · rfl

theorem frees_of_other (other : ∀ addr rest, s.pc ≠ .batch (.ptr addr :: rest)) : frees s action = [] := by
  unfold frees
  split
  · split
    · rename_i addr rest here; exact absurd here (other addr rest)
    · rfl
  · rfl

theorem frees_of_data (here : s.pc = .batch (.ptr addr :: rest)) (block : s.heap addr = some user)
    (opened : s.conns user.fd = some c) (data : c.read = .data chunk) : frees s (.handle accepted) = [] := by
  simp [frees,here,block,opened,data]

theorem frees_of_removed (here : s.pc = .batch (.ptr addr :: rest)) (block : s.heap addr = some user)
    (ended : s.conns user.fd = none ∨ ∃ c, s.conns user.fd = some c ∧ (c.read = .error ∨ c.read = .eof)) :
    frees s (.handle accepted) = [addr] := by
  rcases ended with gone | ⟨c,opened,failed | eof⟩
  · simp [frees,here,block,gone]
  · simp [frees,here,block,opened,failed]
  · simp [frees,here,block,opened,eof]

theorem frees_once (valid : Owned s) (stepped : Stepped listenfd s action next) (freed : addr ∈ frees s action) :
    s.heap addr ≠ none ∧ next.heap addr = none ∧ addr ∉ next.pc.blocks := by
  cases stepped with
  | overreads here block opened data unprinted => simp [frees_of_data here block opened data] at freed
  | reads here block opened data printed => simp [frees_of_data here block opened data] at freed
  | removes here block ended =>
    rw [frees_of_removed here block ended,List.mem_singleton] at freed
    subst freed
    have once := valid.once
    rw [here] at once
    exact ⟨by simp [block],by simp [removeClient],(List.nodup_cons.mp once).1⟩
  | usesFreed here gone =>
    obtain ⟨user,block⟩ := valid.held _ (by rw [here]; exact List.mem_cons_self)
    cases gone.symm.trans block
  | acceptFails here => simp [frees,here] at freed
  | overindexes here large => simp [frees,here] at freed
  | accepts here first other free unused small => simp [frees,here] at freed
  | _ => simp [frees] at freed

theorem contained (valid : Owned s) (granted : Granted s action) (stepped : Stepped listenfd s action next)
    (left : next.pc = .wild) (inside : s.pc ≠ .wild) :
    ∃ addr rest user c chunk, s.pc = .batch (.ptr addr :: rest) ∧ s.heap addr = some user ∧
      s.conns user.fd = some c ∧ c.read = .data chunk ∧ chunk.length = MAXLINE ∧ 0 ∉ chunk := by
  cases stepped with
  | acceptFails here =>
    obtain ⟨fd,addr,failed,_⟩ := granted _ here
    cases failed
  | overindexes here large =>
    obtain ⟨fd,addr,same,small⟩ := granted _ here
    cases same
    exact absurd small large
  | usesFreed here freed =>
    obtain ⟨user,block⟩ := valid.held _ (by rw [here]; exact List.mem_cons_self)
    cases freed.symm.trans block
  | overreads here block opened data unprinted =>
    obtain ⟨name,small⟩ := valid.named _ _ block
    have full := (lineText_isSome small (read_length data)).not.mp (by rw [← name,unprinted]; simp)
    have fits := read_length data
    exact ⟨_,_,_,_,_,here,block,opened,data,by omega,fun zero => full (.inr zero)⟩
  | connect live => exact absurd left inside
  | pendingPeer live pending moved => exact absurd left inside
  | peer live opened moved => exact absurd left inside
  | _ => simp [removeClient] at left

theorem ledger_malloc {heap : Nat → Option α} {fresh : Nat} {block : α} (addr : Nat) (unused : heap fresh = none) :
    (if (Function.update heap fresh (some block) addr).isSome then 1 else 0) =
      (if (heap addr).isSome then 1 else 0) + List.count addr [fresh] := by
  by_cases equal : addr = fresh
  · subst equal; simp [unused]
  · simp [Function.update_of_ne equal,Ne.symm equal]

theorem ledger_free {heap : Nat → Option α} {freed : Nat} {block : α} (addr : Nat) (live : heap freed = some block) :
    (if (Function.update heap freed none addr).isSome then 1 else 0) + List.count addr [freed] =
      if (heap addr).isSome then 1 else 0 := by
  by_cases equal : addr = freed
  · subst equal; simp [live]
  · simp [Function.update_of_ne equal,Ne.symm equal]

-- One block's entry in the ledger: what is held after a step and what the step
-- frees is what was held before and what it gets from malloc.
theorem ledger_step (valid : Owned s) (addr : Nat) (stepped : Stepped listenfd s action next) (granted : Granted s action) :
    (if (next.heap addr).isSome then 1 else 0) + (frees s action).count addr =
      (if (s.heap addr).isSome then 1 else 0) + (mallocs s action).count addr := by
  cases stepped with
  | acceptFails here =>
    obtain ⟨fd,addr,failed,_⟩ := granted _ here
    cases failed
  | overindexes here large =>
    obtain ⟨fd,addr,same,small⟩ := granted _ here
    cases same
    exact absurd small large
  | usesFreed here freed =>
    obtain ⟨user,block⟩ := valid.held _ (by rw [here]; exact List.mem_cons_self)
    cases freed.symm.trans block
  | accepts here first other free unused small =>
    rw [frees_of_other (by simp [here])]
    simpa [mallocs,here] using ledger_malloc addr unused
  | overreads here block opened data unprinted =>
    simp [mallocs_of_other,frees_of_data here block opened data,here]
  | reads here block opened data printed =>
    simp [mallocs_of_other,frees_of_data here block opened data,here]
  | removes here block ended =>
    rw [frees_of_removed here block ended,mallocs_of_other (by simp [here])]
    exact ledger_free addr block
  | _ => simp [mallocs,frees]

theorem representation_kept (granted : Every (step listenfd) Granted initial actions)
    (ran : run (step listenfd) initial actions = some s) :
    Always (step listenfd) Represented initial actions ∧ Every (step listenfd) (FreesOnce listenfd) initial actions ∧
    Every (step listenfd) (Contained listenfd) initial actions ∧
    ∀ addr, (if (s.heap addr).isSome then 1 else 0) + (emitted (step listenfd) frees initial actions).count addr =
      (emitted (step listenfd) mallocs initial actions).count addr := by
  have keeps : ∀ s action next, Owned s → Granted s action → step listenfd s action = some next → Owned next :=
    fun s action next valid _ ran => owned_preserved valid (step_sound ran)
  refine ⟨always_of_preserves keeps (fun _ => owned_represented) initial_owned granted,?_,?_,?_⟩
  · apply every_of_preserves keeps _ initial_owned granted
    intro s action valid _ next ran addr freed
    exact frees_once valid (step_sound ran) freed
  · apply every_of_preserves keeps _ initial_owned granted
    intro s action valid allowed next ran left inside
    exact contained valid allowed (step_sound ran) left inside
  · intro addr
    have balanced := emitted_balance addr keeps
      (fun _ _ _ valid allowed ran => ledger_step valid addr (step_sound ran) allowed) initial_owned granted ran
    simpa [initial] using balanced

def reuse : List Action :=
  [.connect,.epollWait [none],.handle (some (5,100)),.peer 5 .fin,.connect,.epollWait [some 5,none],
    .handle (some (5,100)),.handle (some (5,100)),.peer 5 (.data (CText.ascii "hi")),.epollWait [some 5],
    .handle (some (5,100))] ++ List.replicate 8 .write

theorem representation_kept_reuse :
    (run (step 3) initial reuse).isSome ∧ Always (step 3) Represented initial reuse ∧
    emitted (step 3) frees initial reuse = [100] ∧ emitted (step 3) mallocs initial reuse = [100,100] ∧
    Every (step 3) (FreesOnce 3) initial reuse ∧ Every (step 3) (Contained 3) initial reuse := by
  have ends : (run (step 3) initial reuse).isSome := by decide +kernel
  have granted : Every (step 3) Granted initial reuse := by
    apply every_of_actions
    intro action member s
    simp only [reuse,List.cons_append,List.nil_append,List.mem_cons,List.mem_replicate] at member
    rcases member with rfl | rfl | rfl | rfl | rfl | rfl | rfl | rfl | rfl | rfl | rfl | ⟨_,rfl⟩ <;>
      simp [Granted,maxClients]
  obtain ⟨s,ran⟩ := Option.isSome_iff_exists.mp ends
  obtain ⟨represented,freed,contained,_⟩ := representation_kept granted ran
  exact ⟨ends,represented,by decide +kernel,by decide +kernel,freed,contained⟩

end NetworkEx.EpollRepresentation
