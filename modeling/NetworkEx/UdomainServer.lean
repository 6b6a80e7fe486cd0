import NetworkEx.CText
import NetworkEx.TransitionRuns

namespace NetworkEx.UdomainServer
open ByteStreams CText TransitionRuns

def MAXLINE : Nat := 1024

def filled (bytes : Bytes) : Bytes := overlay bytes (List.replicate MAXLINE 0)

-- What printf and strlen take for the text of buf: a full buf goes on in the
-- memory behind it.
def shown (buf : Bytes) (beyond : {bytes : Bytes // 0 ∉ bytes}) : Bytes := (cstring buf).getD (buf ++ beyond.val)

inductive Read where
  | data (piece : Piece MAXLINE) (beyond : {bytes : Bytes // 0 ∉ bytes})
  | eof
  | error

inductive Pc where
  | accept
  | inner (clientFd : Nat)
  | exited
  deriving DecidableEq

-- `ended` is history: the session of the last accept is over. `written` is what
-- went to each descriptor.
structure State where
  pc : Pc
  opened : List Nat
  ended : Bool
  written : List (Nat × Bytes)

def initial : State := ⟨.accept,[],false,[]⟩

inductive Action where
  | accept (answer : Option Nat)
  | read (result : Read)

-- accept hands out no descriptor that is open. Its -1 ends the process, and a
-- read of -1 is no end of the inner loop. Each write takes what it is given.
def step (s : State) : Action → Option State
  | .accept answer =>
    match s.pc with
    | .accept =>
      match answer with
      | none => some {s with pc := .exited,opened := [],ended := false}
      | some fd => if fd ∈ s.opened then none else some {s with pc := .inner fd,opened := fd :: s.opened,ended := false}
    | _ => none
  | .read result =>
    match s.pc with
    | .inner clientFd =>
      match result with
      | .eof => some {s with pc := .accept,ended := true}
      | .data piece beyond =>
        some {s with ended := false,written := s.written ++ [(clientFd,shown (filled piece.val) beyond)]}
      | .error => some {s with ended := true}
    | _ => none

structure Clean (s : State) : Prop where
  returns : s.ended = true → s.pc = .accept ∧ s.opened = []
  one : s.opened.length ≤ 1

def Ends : Action → Prop
  | .read .eof | .read .error => True
  | _ => False

def Continues (_ : State) (action : Action) : Prop := ¬ Ends action

structure First (s : State) : Prop where
  running : s.ended = false
  opened : s.opened = match s.pc with
    | .inner clientFd => [clientFd]
    | _ => []

theorem first_clean (first : First s) : Clean s := by
  refine ⟨?_,?_⟩
  · intro past
    rw [first.running] at past
    cases past
  · rw [first.opened]
    split <;> simp

theorem first_preserved (first : First s) (continues : Continues s action) (stepped : step s action = some next) :
    First next := by
  have opened := first.opened
  cases action with
  | accept answer =>
    cases here : s.pc with
    | inner clientFd | exited => simp only [step,here] at stepped; cases stepped
    | accept =>
      rw [here] at opened
      simp only [step,here] at stepped
      cases answer with
      | none => cases stepped; exact ⟨rfl,rfl⟩
      | some fd =>
        simp only [opened,List.not_mem_nil,if_false] at stepped
        cases stepped
        exact ⟨rfl,rfl⟩
  | read result =>
    cases here : s.pc with
    | accept | exited => simp only [step,here] at stepped; cases stepped
    | inner clientFd =>
      simp only [step,here] at stepped
      cases result with
      | eof | error => exact absurd trivial continues
      | data piece beyond =>
        cases stepped
        refine ⟨rfl,?_⟩
        rw [opened,here]

-- The descriptor of a session that is over stays open, and after an error the
-- inner loop goes on with it.
theorem ended_unclean (first : First s) (ends : Ends action) (stepped : step s action = some next) : ¬ Clean next := by
  intro clean
  have opened := first.opened
  cases action with
  | accept answer => exact ends
  | read result =>
    cases here : s.pc with
    | accept | exited => simp only [step,here] at stepped; cases stepped
    | inner clientFd =>
      rw [here] at opened
      simp only [step,here] at stepped
      cases result with
      | data piece beyond => exact ends
      | eof | error =>
        cases stepped
        have closed : s.opened = [] := (clean.returns rfl).2
        rw [opened] at closed
        cases closed

theorem clean_exact (ran : run step initial actions = some s) :
    Always step Clean initial actions ↔ Every step Continues initial actions := by
  have keeps : ∀ s action next, First s → Continues s action → step s action = some next → First next :=
    fun s action next first continues stepped => first_preserved first continues stepped
  have exactly : ∀ s action next, First s → Clean s → step s action = some next → (Clean next ↔ Continues s action) := by
    intro s action next first _ stepped
    constructor
    · intro clean ends
      exact ended_unclean first ends stepped clean
    · intro continues
      exact first_clean (first_preserved first continues stepped)
  have start : First initial := ⟨rfl,rfl⟩
  exact always_iff_every keeps exactly start (first_clean start) ran

def hi : Read := .data ⟨ascii "hi\n",by decide⟩ ⟨[],by simp⟩

theorem clean_exact_first :
    Always step Clean initial [.accept (some 4),.read hi] ↔ Every step Continues initial [.accept (some 4),.read hi] :=
  clean_exact (s := ⟨.inner 4,[4],false,[(4,ascii "hi\n")]⟩) rfl

def twoClients : List Action := [.accept (some 4),.read .eof,.accept (some 5)]
def failedRead : List Action := [.accept (some 4),.read .error]

theorem descriptor_left_open :
    (run step initial twoClients).map State.opened = some [5,4] ∧ ¬ Always step Clean initial twoClients ∧
    (run step initial failedRead).map (fun s => (s.pc,s.ended)) = some (.inner 4,true) ∧
    ¬ Always step Clean initial failedRead := by
  have open_ : (run step initial twoClients).map State.opened = some [5,4] := by decide
  have inner : (run step initial failedRead).map (fun s => (s.pc,s.ended)) = some (.inner 4,true) := by decide
  refine ⟨open_,?_,inner,?_⟩
  · intro always
    obtain ⟨s,clean,opened⟩ := always_seen always open_
    have one := clean.one
    rw [opened] at one
    exact absurd one (by decide)
  · intro always
    obtain ⟨s,clean,same⟩ := always_seen always inner
    obtain ⟨here,past⟩ := Prod.mk.inj same
    have back := (clean.returns past).1
    rw [here] at back
    cases back

end NetworkEx.UdomainServer
