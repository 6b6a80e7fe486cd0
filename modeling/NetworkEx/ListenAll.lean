import Mathlib.Data.List.Basic

namespace NetworkEx.ListenAll

inductive Family where
  | inet
  | inet6
  deriving DecidableEq

inductive Errno where
  | EADDRINUSE
  | other
  deriving DecidableEq

-- An address of getaddrinfo's list with what the kernel answers for it: the
-- descriptor or -1, bind's error if it has one, and whether listen succeeds.
structure Address where
  aiFamily : Family
  socket : Option Nat
  bind : Option Errno
  listen : Bool

inductive Call where
  | socket (i : Nat) (answer : Option Nat)
  | v6only (fd : Option Nat)
  | bind (fd : Option Nat) (answer : Option Errno)
  | listen (fd : Option Nat) (answer : Bool)
  deriving DecidableEq

-- bind(-1,..) is answered with EBADF.
def bindAnswer (rp : Address) : Option Errno :=
  match rp.socket with
  | none => some .other
  | some _ => rp.bind

def opening (i : Nat) (rp : Address) : List Call :=
  .socket i rp.socket :: if rp.aiFamily = .inet6 then [.v6only rp.socket] else []

-- The loop from the i-th address on: the calls, and whether main has returned 1.
-- if(errno != EADDRINUSE); guards nothing: each failure of bind ends main.
def listenLoop : Nat → List Address → List Call × Bool
  | _,[] => ([],false)
  | i,rp :: rest =>
    match bindAnswer rp with
    | some errno => (opening i rp ++ [.bind rp.socket (some errno)],true)
    | none =>
      let bound := opening i rp ++ [.bind rp.socket none]
      if rp.listen then
        let (calls,gaveUp) := listenLoop (i+1) rest
        (bound ++ .listen rp.socket true :: calls,gaveUp)
      else (bound ++ [.listen rp.socket false],true)

def main (result : List Address) : List Call × Bool := listenLoop 0 result

structure Tolerant (first count : Nat) (done : List Call × Bool) : Prop where
  opened : ∀ fd, ((∃ answer, .bind fd answer ∈ done.1) ∨ ∃ answer, .listen fd answer ∈ done.1) →
    ∃ i k, fd = some k ∧ .socket i (some k) ∈ done.1
  givesUp : done.2 = true → ∃ earlier fd, done.1 = earlier ++ [.bind fd (some .other)] ∨ done.1 = earlier ++ [.listen fd false]
  goesOn : done.2 = false → ∀ k, k < count → ∃ answer, .socket (first + k) answer ∈ done.1

def Listens (rp : Address) : Prop := rp.socket.isSome ∧ rp.bind = none ∧ rp.listen = true

-- No address that is reached has a socket that fails or is in use. The first
-- one that does not listen is the last.
def Clear : List Address → Prop
  | [] => True
  | rp :: rest => (rp.socket.isSome ∧ rp.bind ≠ some .EADDRINUSE) ∧ (Listens rp → Clear rest)

theorem opened_bind (i : Nat) (rp : Address) (opened : rp.socket = some k) : .socket i (some k) ∈ opening i rp := by
  rw [opening,opened]
  exact List.mem_cons_self

theorem opening_quiet (i : Nat) (rp : Address) (fd : Option Nat) :
    (∀ answer, .bind fd answer ∉ opening i rp) ∧ ∀ answer, .listen fd answer ∉ opening i rp := by
  unfold opening
  split <;> simp

theorem loop_fails (failed : bindAnswer rp = some errno) (i : Nat) (rest : List Address) :
    listenLoop i (rp :: rest) = (opening i rp ++ [.bind rp.socket (some errno)],true) := by
  simp only [listenLoop,failed]

theorem bindAnswer_opened (opened : rp.socket = some k) : bindAnswer rp = rp.bind := by rw [bindAnswer,opened]

theorem loop_bound (opened : rp.socket = some k) (bound : rp.bind = none) (i : Nat) (rest : List Address) :
    listenLoop i (rp :: rest) =
      if rp.listen then
        (opening i rp ++ .bind (some k) none :: .listen (some k) true :: (listenLoop (i+1) rest).1,(listenLoop (i+1) rest).2)
      else (opening i rp ++ [.bind (some k) none,.listen (some k) false],true) := by
  have answered : bindAnswer rp = none := (bindAnswer_opened opened).trans bound
  simp only [listenLoop,answered,opened,List.append_assoc,List.singleton_append]

theorem tolerant_listens (opened : rp.socket = some k) (tolerant : Tolerant (i+1) count done) :
    Tolerant i (count+1) (opening i rp ++ .bind (some k) none :: .listen (some k) true :: done.1,done.2) := by
  obtain ⟨onward,ends,tried⟩ := tolerant
  have made := opened_bind i rp opened
  have quiet := opening_quiet i rp
  refine ⟨?_,?_,?_⟩
  · intro fd called
    by_cases here : fd = some k
    · exact ⟨i,k,here,List.mem_append_left _ made⟩
    · have later : (∃ answer, .bind fd answer ∈ done.1) ∨ ∃ answer, .listen fd answer ∈ done.1 := by
        simpa [quiet,here] using called
      obtain ⟨j,n,same,known⟩ := onward fd later
      exact ⟨j,n,same,by simp [known]⟩
  · intro gaveUp
    obtain ⟨earlier,fd,last⟩ := ends gaveUp
    refine ⟨opening i rp ++ .bind (some k) none :: .listen (some k) true :: earlier,fd,?_⟩
    rcases last with last | last <;> simp [last]
  · intro through j inside
    cases j with
    | zero => exact ⟨_,List.mem_append_left _ made⟩
    | succ j =>
      obtain ⟨answer,called⟩ := tried through j (Nat.lt_of_succ_lt_succ inside)
      have place : i + (j+1) = i + 1 + j := by omega
      exact ⟨answer,by simp [place,called]⟩

theorem clear_tolerant (clear : Clear result) (i : Nat) : Tolerant i result.length (listenLoop i result) := by
  induction result generalizing i with
  | nil => exact ⟨by simp [listenLoop],nofun,fun _ k inside => absurd inside (Nat.not_lt_zero k)⟩
  | cons rp rest ih =>
    obtain ⟨⟨isOpen,free⟩,later⟩ := clear
    obtain ⟨k,opened⟩ := Option.isSome_iff_exists.mp isOpen
    have made := opened_bind i rp opened
    have quiet := opening_quiet i rp
    cases bound : rp.bind with
    | some errno =>
      have other : errno = .other := by
        cases errno with
        | EADDRINUSE => exact absurd bound free
        | other => rfl
      subst other
      rw [loop_fails ((bindAnswer_opened opened).trans bound),opened]
      refine ⟨?_,fun _ => ⟨_,_,.inl rfl⟩,nofun⟩
      intro fd called
      have same : fd = some k := by simpa [quiet] using called
      exact ⟨i,k,same,List.mem_append_left _ made⟩
    | none =>
      rw [loop_bound opened bound]
      cases heard : rp.listen with
      | false =>
        rw [if_neg Bool.false_ne_true]
        refine ⟨?_,fun _ => ⟨opening i rp ++ [.bind (some k) none],some k,.inr (by simp)⟩,nofun⟩
        intro fd called
        have same : fd = some k := by simpa [quiet] using called
        exact ⟨i,k,same,List.mem_append_left _ made⟩
      | true =>
        rw [if_pos rfl]
        exact tolerant_listens opened (ih (later ⟨isOpen,bound,heard⟩) (i+1))

-- A bind on no descriptor, or an end of main at an address in use.
def Breaks (done : List Call × Bool) : Prop :=
  (∃ answer, .bind none answer ∈ done.1) ∨ (done.2 = true ∧ ∃ earlier fd, done.1 = earlier ++ [.bind fd (some .EADDRINUSE)])

theorem breaks_intolerant (breaks : Breaks done) : ¬ Tolerant first count done := by
  intro tolerant
  rcases breaks with unopened | ⟨gaveUp,earlier,fd,last⟩
  · obtain ⟨_,_,same,_⟩ := tolerant.opened none (.inl unopened)
    cases same
  · obtain ⟨front,other,ends⟩ := tolerant.givesUp gaveUp
    rw [last] at ends
    rcases ends with same | same
    · cases (List.append_inj' same rfl).2
    · cases (List.append_inj' same rfl).2

theorem unclear_breaks (unclear : ¬ Clear result) (i : Nat) : Breaks (listenLoop i result) := by
  induction result generalizing i with
  | nil => exact absurd trivial unclear
  | cons rp rest ih =>
    cases opened : rp.socket with
    | none =>
      have failed : bindAnswer rp = some .other := by rw [bindAnswer,opened]
      rw [loop_fails failed]
      exact .inl ⟨some .other,by simp [opened]⟩
    | some k =>
      have isOpen : rp.socket.isSome := by rw [opened]; rfl
      cases bound : rp.bind with
      | some errno =>
        rw [loop_fails ((bindAnswer_opened opened).trans bound)]
        cases errno with
        | EADDRINUSE => exact .inr ⟨rfl,_,_,rfl⟩
        | other =>
          have clear : Clear (rp :: rest) := by
            refine ⟨⟨isOpen,by rw [bound]; exact nofun⟩,fun listens => ?_⟩
            cases bound.symm.trans listens.2.1
          exact absurd clear unclear
      | none =>
        have free : rp.bind ≠ some .EADDRINUSE := by rw [bound]; exact nofun
        have further : Listens rp ∧ ¬ Clear rest := by
          by_contra neither
          exact unclear ⟨⟨isOpen,free⟩,fun listens => by_contra fun later => neither ⟨listens,later⟩⟩
        rw [loop_bound opened bound,if_pos further.1.2.2]
        rcases ih further.2 (i+1) with ⟨answer,called⟩ | ⟨gaveUp,earlier,fd,last⟩
        · exact .inl ⟨answer,by simp [called]⟩
        · exact .inr ⟨gaveUp,opening i rp ++ .bind (some k) none :: .listen (some k) true :: earlier,fd,by simp [last]⟩

theorem tolerant_exact (result : List Address) : Tolerant 0 result.length (main result) ↔ Clear result := by
  constructor
  · intro tolerant
    by_contra unclear
    exact breaks_intolerant (unclear_breaks unclear 0) tolerant
  · intro clear
    exact clear_tolerant clear 0

def inUse : Address := ⟨.inet,some 3,some .EADDRINUSE,true⟩
def unsupported : Address := ⟨.inet6,none,none,true⟩
def usable : Address := ⟨.inet,some 4,none,true⟩

theorem in_use_ends :
    main [inUse,usable] = ([.socket 0 (some 3),.bind (some 3) (some .EADDRINUSE)],true) ∧
    ¬ Tolerant 0 2 (main [inUse,usable]) ∧
    main [unsupported,usable] = ([.socket 0 none,.v6only none,.bind none (some .other)],true) ∧
    ¬ Tolerant 0 2 (main [unsupported,usable]) := by
  have used : main [inUse,usable] = ([.socket 0 (some 3),.bind (some 3) (some .EADDRINUSE)],true) := by decide
  have lacking : main [unsupported,usable] = ([.socket 0 none,.v6only none,.bind none (some .other)],true) := by decide
  refine ⟨used,?_,lacking,?_⟩
  · rw [used]
    exact breaks_intolerant (.inr ⟨rfl,[.socket 0 (some 3)],some 3,rfl⟩)
  · rw [lacking]
    exact breaks_intolerant (.inl ⟨some .other,by decide⟩)

end NetworkEx.ListenAll
