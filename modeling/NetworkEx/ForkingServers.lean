import Mathlib.Data.List.Nodup
import NetworkEx.ProcessTable
import NetworkEx.TransitionRuns

namespace NetworkEx.ForkingServers
open ProcessTable TransitionRuns

-- Where main is in its loop; connections are numbered as accept returns them.
inductive Pc where
  | accepting
  | forking (conn : Nat)
  | closing (conn : Nat)
  | ended
  deriving DecidableEq

-- A forked process with the connections that it got from its parent's table.
structure Child where
  serves : Nat
  holds : List Nat
  alive : Bool
  deriving DecidableEq

-- `parent` is what main's own table holds, `failed` history: the connections for
-- which fork has answered -1.
structure State where
  pc : Pc
  accepted : Nat
  parent : List Nat
  children : List Child
  failed : List Nat
  deriving DecidableEq

def initial : State := ⟨.accepting,0,[],[],[]⟩

inductive Action where
  | accept (succeeds : Bool)
  | fork (succeeds : Bool)
  | close
  | exit (child : Nat)

def ends (s : State) : State := {s with pc := .ended,parent := []}

-- `goesOn` tells what main does where fork fails: it leaves its loop, or goes
-- back to accept without a close. A process that ends closes all it holds.
def step (goesOn : Bool) (s : State) : Action → Option State
  | .accept succeeds =>
    if s.pc = .accepting then
      if succeeds then
        some {s with pc := .forking s.accepted,accepted := s.accepted + 1,parent := s.parent ++ [s.accepted]}
      else some (ends s)
    else none
  | .fork succeeds =>
    match s.pc with
    | .forking conn =>
      if succeeds then some {s with pc := .closing conn,children := s.children ++ [⟨conn,s.parent,true⟩]}
      else if goesOn then some {s with pc := .accepting,failed := s.failed ++ [conn]}
      else some {ends s with failed := s.failed ++ [conn]}
    | _ => none
  | .close =>
    match s.pc with
    | .closing conn => some {s with pc := .accepting,parent := s.parent.erase conn}
    | _ => none
  | .exit i =>
    (s.children[i]?).bind fun child =>
      if child.alive then some {s with children := s.children.set i {child with alive := false}} else none

-- main of echo_server_fork, and those of the file server and the web server.
def echoServerFork : State → Action → Option State := step true
def fileServer : State → Action → Option State := step false
def webServer : State → Action → Option State := step false

-- The client of a connection sees its end when no process holds it any more.
def Held (s : State) (conn : Nat) : Prop := conn ∈ s.parent ∨ ∃ child ∈ s.children, child.alive = true ∧ conn ∈ child.holds

def Served (s : State) (conn : Nat) : Prop := ∃ child ∈ s.children, child.alive = true ∧ child.serves = conn

def Pc.current : Pc → List Nat
  | .forking conn | .closing conn => [conn]
  | _ => []

inductive Stepped (goesOn : Bool) (s : State) : Action → State → Prop where
  | accepts (idle : s.pc = .accepting) :
      Stepped goesOn s (.accept true)
        {s with pc := .forking s.accepted,accepted := s.accepted + 1,parent := s.parent ++ [s.accepted]}
  | acceptFails (idle : s.pc = .accepting) : Stepped goesOn s (.accept false) (ends s)
  | forks (here : s.pc = .forking conn) :
      Stepped goesOn s (.fork true) {s with pc := .closing conn,children := s.children ++ [⟨conn,s.parent,true⟩]}
  | keeps (here : s.pc = .forking conn) (on : goesOn = true) :
      Stepped goesOn s (.fork false) {s with pc := .accepting,failed := s.failed ++ [conn]}
  | stops (here : s.pc = .forking conn) (off : goesOn = false) :
      Stepped goesOn s (.fork false) {ends s with failed := s.failed ++ [conn]}
  | closes (here : s.pc = .closing conn) : Stepped goesOn s .close {s with pc := .accepting,parent := s.parent.erase conn}
  | exits (found : s.children[i]? = some child) (alive : child.alive = true) :
      Stepped goesOn s (.exit i) {s with children := s.children.set i {child with alive := false}}

theorem step_sound (ran : step goesOn s action = some next) : Stepped goesOn s action next := by
  cases action with
  | accept succeeds =>
    simp only [step,Option.ite_none_right_eq_some] at ran
    obtain ⟨idle,ran⟩ := ran
    cases succeeds with
    | true => cases ran; exact .accepts idle
    | false => cases ran; exact .acceptFails idle
  | fork succeeds =>
    simp only [step] at ran
    split at ran
    · rename_i conn here
      cases succeeds with
      | true => cases ran; exact .forks here
      | false =>
        cases on : goesOn with
        | true =>
          rw [on] at ran
          cases ran
          exact .keeps here rfl
        | false =>
          rw [on] at ran
          cases ran
          exact .stops here rfl
    · cases ran
  | close =>
    simp only [step] at ran
    split at ran
    · rename_i conn here
      cases ran
      exact .closes here
    · cases ran
  | exit i =>
    simp only [step,Option.bind_eq_some_iff,Option.ite_none_right_eq_some,Option.some.injEq] at ran
    obtain ⟨child,found,alive,rfl⟩ := ran
    exact .exits found alive

-- main holds what it has in hand and what its failed forks have left; a child
-- holds its own connection and some of the others.
structure Accounted (goesOn : Bool) (s : State) : Prop where
  parent : s.pc ≠ .ended → s.parent = s.failed ++ s.pc.current
  holds : ∀ child ∈ s.children, child.serves ∈ child.holds ∧ ∀ conn ∈ child.holds, conn = child.serves ∨ conn ∈ s.failed
  fresh : (∀ conn ∈ s.failed ++ s.pc.current,conn < s.accepted) ∧ ∀ child ∈ s.children, child.serves < s.accepted
  once : (s.failed ++ s.pc.current).Nodup ∧ (s.children.map Child.serves).Nodup
  apart : ∀ child ∈ s.children, child.serves ∉ s.failed ∧ s.pc ≠ .forking child.serves
  all : ∀ conn < s.accepted, conn ∈ s.failed ∨ s.pc = .forking conn ∨ conn ∈ s.children.map Child.serves
  strict : goesOn = false → s.pc ≠ .ended → s.failed = []

theorem initial_accounted (goesOn : Bool) : Accounted goesOn initial := by
  refine ⟨fun _ => rfl,?_,⟨?_,?_⟩,⟨List.nodup_nil,List.nodup_nil⟩,?_,?_,fun _ _ => rfl⟩
  · intro child member; cases member
  · intro conn member; cases member
  · intro child member; cases member
  · intro child member; cases member
  · intro conn below; cases below

theorem exits_serves {children : List Child} (found : children[i]? = some child) :
    (children.set i {child with alive := false}).map Child.serves = children.map Child.serves := by
  obtain ⟨inside,rfl⟩ := List.getElem?_eq_some_iff.mp found
  have mapped : i < (children.map Child.serves).length := by simpa using inside
  have same : (children.map Child.serves)[i] = children[i].serves := List.getElem_map ..
  rw [List.map_set,← same,List.set_getElem_self]

theorem accounted_rests (valid : Accounted goesOn s) (kept : ∀ conn, s.pc ≠ .forking conn) (failed : next.failed = s.failed)
    (children : next.children = s.children) (accepted : next.accepted = s.accepted) (empty : next.pc.current = [])
    (idle : ∀ conn, next.pc ≠ .forking conn) (parent : next.pc ≠ .ended → s.pc ≠ .ended ∧ next.parent = s.failed) :
    Accounted goesOn next := by
  refine ⟨?_,?_,⟨?_,?_⟩,⟨?_,?_⟩,?_,?_,?_⟩
  · intro running
    rw [(parent running).2,failed,empty,List.append_nil]
  · rw [children,failed]
    exact valid.holds
  · rw [failed,empty,accepted,List.append_nil]
    exact (List.forall_mem_append.mp valid.fresh.1).1
  · rw [children,accepted]
    exact valid.fresh.2
  · rw [failed,empty,List.append_nil]
    exact valid.once.1.of_append_left
  · rw [children]
    exact valid.once.2
  · rw [children,failed]
    exact fun child member => ⟨(valid.apart child member).1,idle _⟩
  · rw [accepted,children,failed]
    exact fun conn below => (valid.all conn below).imp_right fun other => .inr (other.resolve_left (kept conn))
  · intro off running
    rw [failed]
    exact valid.strict off (parent running).1

theorem accounted_fails (valid : Accounted goesOn s) (here : s.pc = .forking conn) (failed : next.failed = s.failed ++ [conn])
    (children : next.children = s.children) (accepted : next.accepted = s.accepted) (empty : next.pc.current = [])
    (idle : ∀ conn, next.pc ≠ .forking conn) (parent : next.pc ≠ .ended → goesOn = true ∧ next.parent = s.parent) :
    Accounted goesOn next := by
  have hand : s.failed ++ s.pc.current = next.failed := by rw [here,failed]; rfl
  refine ⟨?_,?_,⟨?_,?_⟩,⟨?_,?_⟩,?_,?_,?_⟩
  · intro running
    rw [(parent running).2,valid.parent (by rw [here]; nofun),hand,empty,List.append_nil]
  · rw [children,failed]
    intro child member
    obtain ⟨mine,others⟩ := valid.holds child member
    exact ⟨mine,fun other known => (others other known).imp_right (List.mem_append_left _)⟩
  · rw [empty,List.append_nil,accepted,← hand]
    exact valid.fresh.1
  · rw [children,accepted]
    exact valid.fresh.2
  · rw [empty,List.append_nil,← hand]
    exact valid.once.1
  · rw [children]
    exact valid.once.2
  · rw [children,failed]
    intro child member
    refine ⟨?_,idle _⟩
    intro present
    rcases List.mem_append.mp present with old | new
    · exact (valid.apart child member).1 old
    · exact (valid.apart child member).2 (by rw [here,List.mem_singleton.mp new])
  · rw [accepted,children,failed]
    intro other below
    rcases valid.all other below with old | forking | served
    · exact .inl (List.mem_append_left _ old)
    · cases here.symm.trans forking
      exact .inl (List.mem_append_right _ List.mem_cons_self)
    · exact .inr (.inr served)
  · intro off running
    cases off.symm.trans (parent running).1

theorem accounted_accepts (valid : Accounted goesOn s) (idle : s.pc = .accepting) :
    Accounted goesOn {s with pc := .forking s.accepted,accepted := s.accepted + 1,parent := s.parent ++ [s.accepted]} := by
  have below : ∀ conn ∈ s.failed, conn < s.accepted := (List.forall_mem_append.mp valid.fresh.1).1
  refine ⟨?_,valid.holds,⟨?_,?_⟩,⟨?_,valid.once.2⟩,?_,?_,?_⟩
  · intro _
    rw [valid.parent (by rw [idle]; nofun),idle]
    simp [Pc.current]
  · exact all_append (fun conn member => Nat.lt_succ_of_lt (below conn member)) (Nat.lt_succ_self _)
  · exact fun child member => Nat.lt_succ_of_lt (valid.fresh.2 child member)
  · refine List.nodup_append.mpr ⟨valid.once.1.of_append_left,List.nodup_singleton _,?_⟩
    intro conn member other new same
    rw [List.mem_singleton.mp new] at same
    exact Nat.ne_of_lt (below conn member) same
  · intro child member
    refine ⟨(valid.apart child member).1,?_⟩
    intro forking
    exact Nat.ne_of_gt (valid.fresh.2 child member) (Pc.forking.inj forking)
  · intro conn present
    rcases Nat.lt_succ_iff_lt_or_eq.mp present with old | rfl
    · exact (valid.all conn old).imp_right fun other => .inr (other.resolve_left (by rw [idle]; nofun))
    · exact .inr (.inl rfl)
  · intro off _
    exact valid.strict off (by rw [idle]; nofun)

-- The child has all that main holds: its own connection, and what failed before.
theorem accounted_forks (valid : Accounted goesOn s) (here : s.pc = .forking conn) :
    Accounted goesOn {s with pc := .closing conn,children := s.children ++ [⟨conn,s.parent,true⟩]} := by
  obtain ⟨parent,holds,⟨freshMain,freshChild⟩,⟨onceMain,onceChild⟩,apart,all,strict⟩ := valid
  have held := parent (by rw [here]; nofun)
  simp only [here,Pc.current] at held freshMain onceMain
  have free : conn ∉ s.failed := fun failed => (List.nodup_append.mp onceMain).2.2 conn failed conn List.mem_cons_self rfl
  refine ⟨fun _ => held,all_append holds ⟨?_,?_⟩,⟨freshMain,all_append freshChild ?_⟩,⟨onceMain,?_⟩,
    all_append (fun child member => ⟨(apart child member).1,nofun⟩) ⟨free,nofun⟩,?_,?_⟩
  · rw [held]
    exact List.mem_append_right _ List.mem_cons_self
  · intro other member
    rw [held] at member
    exact (List.mem_append.mp member).symm.imp_left List.mem_singleton.mp
  · exact freshMain conn (List.mem_append_right _ List.mem_cons_self)
  · rw [List.map_append]
    refine List.nodup_append.mpr ⟨onceChild,List.nodup_singleton _,?_⟩
    intro served member other new same
    obtain ⟨child,known,rfl⟩ := List.mem_map.mp member
    exact (apart child known).2 (by rw [here,same,List.mem_singleton.mp new])
  · intro other below
    rw [List.map_append,List.mem_append]
    rcases all other below with failed | forking | served
    · exact .inl failed
    · cases here.symm.trans forking
      exact .inr (.inr (.inr List.mem_cons_self))
    · exact .inr (.inr (.inl served))
  · intro off _
    exact strict off (by rw [here]; nofun)

theorem accounted_preserved (valid : Accounted goesOn s) (stepped : Stepped goesOn s action next) : Accounted goesOn next := by
  cases stepped with
  | accepts idle => exact accounted_accepts valid idle
  | acceptFails idle =>
    refine accounted_rests valid (by rw [idle]; nofun) rfl rfl rfl rfl nofun ?_
    exact fun running => absurd rfl running
  | forks here => exact accounted_forks valid here
  | keeps here on => exact accounted_fails valid here rfl rfl rfl rfl nofun fun _ => ⟨on,rfl⟩
  | stops here off =>
    refine accounted_fails valid here rfl rfl rfl rfl nofun ?_
    exact fun running => absurd rfl running
  | closes here =>
    rename_i conn
    have held := valid.parent (by rw [here]; nofun)
    have once := valid.once.1
    simp only [here,Pc.current] at held once
    have free : conn ∉ s.failed := fun failed => (List.nodup_append.mp once).2.2 conn failed conn List.mem_cons_self rfl
    refine accounted_rests valid (by rw [here]; nofun) rfl rfl rfl rfl nofun ?_
    intro _
    refine ⟨by rw [here]; nofun,?_⟩
    rw [held,List.erase_append_right _ free]
    simp
  | exits found alive =>
    rename_i i child
    have known := List.mem_of_getElem? found
    have same := exits_serves found
    refine ⟨valid.parent,all_set valid.holds (valid.holds child known),
      ⟨valid.fresh.1,all_set valid.fresh.2 (valid.fresh.2 child known)⟩,⟨valid.once.1,?_⟩,
      all_set valid.apart (valid.apart child known),?_,valid.strict⟩
    · rw [same]
      exact valid.once.2
    · rw [same]
      exact valid.all

theorem run_accounted (ran : run (step goesOn) initial actions = some s) : Accounted goesOn s :=
  run_invariant (fun _ _ _ valid stepped => accounted_preserved valid (step_sound stepped)) (initial_accounted goesOn) ran

-- Back at accept, main holds exactly the connections of its failed forks, each
-- of the others has one child, and is open as long as this child runs.
theorem accepting_holds (ran : run (step goesOn) initial actions = some s) (idle : s.pc = .accepting) :
    s.parent = s.failed ∧ (∀ conn, Held s conn ↔ conn ∈ s.failed ∨ Served s conn) ∧
    (∀ conn < s.accepted, conn ∉ s.failed → (s.children.map Child.serves).count conn = 1) ∧
    ((∀ conn, Held s conn → Served s conn) ↔ s.failed = []) ∧ (goesOn = false → s.failed = []) := by
  have valid := run_accounted ran
  have mine : s.parent = s.failed := by
    have parent := valid.parent (by rw [idle]; nofun)
    simpa [idle,Pc.current] using parent
  have held : ∀ conn, Held s conn ↔ conn ∈ s.failed ∨ Served s conn := by
    intro conn
    constructor
    · rintro (parent | ⟨child,member,alive,holds⟩)
      · exact .inl (mine ▸ parent)
      · rcases (valid.holds child member).2 conn holds with same | failed
        · exact .inr ⟨child,member,alive,same.symm⟩
        · exact .inl failed
    · rintro (failed | ⟨child,member,alive,rfl⟩)
      · exact .inl (mine.symm ▸ failed)
      · exact .inr ⟨child,member,alive,(valid.holds child member).1⟩
  refine ⟨mine,held,?_,?_,fun off => valid.strict off (by rw [idle]; nofun)⟩
  · intro conn below other
    refine List.count_eq_one_of_mem valid.once.2 ?_
    rcases valid.all conn below with failed | forking | served
    · exact absurd failed other
    · rw [idle] at forking; cases forking
    · exact served
  · constructor
    · intro released
      refine List.eq_nil_iff_forall_not_mem.mpr fun conn failed => ?_
      obtain ⟨child,member,_,rfl⟩ := released conn ((held conn).mpr (.inl failed))
      exact (valid.apart child member).1 failed
    · intro none_ conn open_
      refine ((held conn).mp open_).resolve_left ?_
      rw [none_]
      exact List.not_mem_nil

def unlucky : List Action := [.accept true,.fork false,.accept true,.fork true,.close,.exit 0]

theorem accepting_holds_unlucky : ∃ s, run echoServerFork initial unlucky = some s ∧ s.parent = [0] ∧ Held s 0 ∧ ¬ Held s 1 ∧
    ¬ ∀ conn, Held s conn → Served s conn := by
  have ends : (run echoServerFork initial unlucky).map (fun s => (s.pc,s.parent,s.failed,s.children)) =
      some (.accepting,[0],[0],[⟨1,[0,1],false⟩]) := by decide
  obtain ⟨s,ran,shown⟩ := Option.map_eq_some_iff.mp ends
  simp only [Prod.mk.injEq] at shown
  obtain ⟨idle,parent,failed,children⟩ := shown
  obtain ⟨_,held,_,released,_⟩ := accepting_holds ran idle
  refine ⟨s,ran,parent,.inl (by simp [parent]),?_,?_⟩
  · rw [held,failed]
    rintro (other | ⟨child,member,alive,_⟩)
    · simp at other
    · rw [children,List.mem_singleton] at member
      rw [member] at alive
      cases alive
  · rw [released,failed]
    exact List.cons_ne_nil 0 []

end NetworkEx.ForkingServers
