import Mathlib.Data.List.Infix
import NetworkEx.MulticastSender

namespace NetworkEx.MulticastReceiver
open ByteStreams CText MulticastSender

abbrev Datagram := {bytes : Bytes // 0 < bytes.length ∧ bytes.length < MAXLINE ∧ 0 ∉ bytes}

-- What the calls before the loop answer, those on a descriptor for each one,
-- and what recvfrom answers there: a datagram of the group, or -1.
structure Kernel where
  socket : Int
  addMembership : Int → Bool
  reuseAddr : Int → Bool
  bind : Int → Bool
  sendSocket : Int
  fork : Int
  recvfrom : Int → List (Option Datagram)

-- if( read_fd = socket(..) < 0 ): read_fd is what the comparison gives. None
-- where main returns, or is the parent.
def setUp (kernel : Kernel) : Option Int :=
  let readFd : Int := if kernel.socket < 0 then 1 else 0
  if readFd ≠ 0 then none
  else if !kernel.addMembership readFd then none
  else if !kernel.reuseAddr readFd then none
  else if !kernel.bind readFd then none
  else if kernel.sendSocket < 0 then none
  else if kernel.fork = 0 then some readFd else none

def msgExit : Bytes := ascii "exit\n"

structure Outcome where
  printed : List Bytes
  drops : Nat
  failed : Bool
  deriving DecidableEq

-- strstr(message,msg_exit) != NULL
def exits (text : Bytes) : Bool := decide (msgExit <:+: text)

-- The child's loop over the answers of recvfrom; behind them it waits. A
-- membership can be dropped once.
def child (member : Bool) : List (Option Datagram) → Outcome
  | [] => ⟨[],0,false⟩
  | answer :: rest =>
    let received : Int := match answer with
      | some datagram => datagram.val.length
      | none => -1
    let message := overlay ((answer.map Subtype.val).getD []) (List.replicate MAXLINE 0)
    if received ≠ 0 then ⟨[],0,true⟩
    else
      let text := (cstring message).getD message
      if exits text then
        if member then
          let later := child false rest
          {later with printed := text :: later.printed,drops := later.drops + 1}
        else ⟨[text],1,true⟩
      else
        let later := child member rest
        {later with printed := text :: later.printed}

def receiver (kernel : Kernel) : Option Outcome := (setUp kernel).map fun readFd => child true (kernel.recvfrom readFd)

-- The datagrams up to the first with an exit in it, and whether there is one,
-- as far as recvfrom brings any.
def wanted : List (Option Datagram) → List Bytes × Nat
  | [] => ([],0)
  | none :: _ => ([],0)
  | some datagram :: rest =>
    if exits datagram.val then ([datagram.val],1) else (datagram.val :: (wanted rest).1,(wanted rest).2)

structure Receives (answers : List (Option Datagram)) (outcome : Outcome) : Prop where
  printed : outcome.printed = (wanted answers).1
  dropped : outcome.drops = (wanted answers).2
  stops : outcome.failed = true → none ∈ answers

theorem child_ends (member : Bool) (answer : Option Datagram) (rest : List (Option Datagram)) :
    child member (answer :: rest) = ⟨[],0,true⟩ := by
  cases answer with
  | none => simp [child]
  | some datagram =>
    have positive : (datagram.val.length : Int) ≠ 0 := by
      have some := datagram.property.1
      omega
    simp only [child,if_pos positive]

theorem wanted_some (datagram : Datagram) (rest : List (Option Datagram)) : (wanted (some datagram :: rest)).1 ≠ [] := by
  rw [wanted]
  split <;> exact List.cons_ne_nil _ _

theorem setUp_descriptor (ready : setUp kernel = some readFd) : readFd = 0 := by
  unfold setUp at ready
  by_cases failed : kernel.socket < 0
  · simp [failed] at ready
  · simp only [if_neg failed] at ready
    split_ifs at ready
    exact (Option.some.inj ready).symm

theorem child_receives (answers : List (Option Datagram)) :
    Receives answers (child true answers) ↔ ∀ datagram rest, answers ≠ some datagram :: rest := by
  cases answers with
  | nil => exact iff_of_true ⟨rfl,rfl,nofun⟩ fun _ _ => nofun
  | cons answer rest =>
    rw [child_ends]
    cases answer with
    | none => exact iff_of_true ⟨rfl,rfl,fun _ => List.mem_cons_self⟩ fun _ _ => nofun
    | some datagram =>
      refine iff_of_false ?_ fun none => none datagram rest rfl
      intro receives
      exact wanted_some datagram rest receives.printed.symm

theorem receives_exact (ready : setUp kernel = some readFd) :
    readFd = 0 ∧ ∃ outcome, receiver kernel = some outcome ∧
      (Receives (kernel.recvfrom readFd) outcome ↔ ∀ datagram rest, kernel.recvfrom readFd ≠ some datagram :: rest) := by
  have started : receiver kernel = some (child true (kernel.recvfrom readFd)) := by
    rw [receiver,ready]
    rfl
  exact ⟨setUp_descriptor ready,_,started,child_receives _⟩

def inherited (answers : List (Option Datagram)) : Kernel :=
  ⟨3,fun _ => true,fun _ => true,fun _ => true,4,0,fun _ => answers⟩

theorem receives_exact_quiet :
    (0 : Int) = 0 ∧ ∃ outcome, receiver (inherited [none]) = some outcome ∧
      (Receives ((inherited [none]).recvfrom 0) outcome ↔
        ∀ datagram rest, (inherited [none]).recvfrom 0 ≠ some datagram :: rest) :=
  receives_exact (by decide)

def hi : Datagram := ⟨ascii "hi\n",by decide⟩
def leave : Datagram := ⟨ascii "exit\n",by decide⟩

theorem hi_unprinted :
    receiver (inherited [some hi,some leave]) = some ⟨[],0,true⟩ ∧
    wanted [some hi,some leave] = ([ascii "hi\n",ascii "exit\n"],1) ∧
    ¬ Receives [some hi,some leave] ⟨[],0,true⟩ := by
  refine ⟨by decide,by decide,?_⟩
  intro receives
  exact absurd receives.printed (by decide)

end NetworkEx.MulticastReceiver
