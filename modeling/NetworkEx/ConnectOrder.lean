import NetworkEx.CText

namespace NetworkEx.ConnectOrder
open ByteStreams CText

inductive Family where
  | inet
  | inet6

structure Interface where
  ifIndex : Nat
  ifName : Bytes

-- An attempt: the address by its place in getaddrinfo's list, for IPv6 with the
-- place of the interface whose index is the scope.
abbrev Candidate := Nat × Option Nat

-- What the kernel answers to socket, for each address, and to each connect.
structure World where
  socket : Nat → Bool
  connect : Candidate → Bool

structure State where
  connection : Bool
  opened : List Nat
  connected : Option Candidate

def openSocket (i : Nat) (s : State) : State := {s with opened := i :: s.opened}
def closeSocket (i : Nat) (s : State) : State := {s with opened := s.opened.erase i}
def connects (candidate : Candidate) (s : State) : State := {s with connection := true,connected := some candidate}

-- The loop over if_nameindex's list; a connect that succeeds breaks it.
def interfaceLoop (world : World) (i : Nat) (s : State) : Nat → List Interface → State
  | _,[] => s
  | j,ifp :: rest =>
    if ifp.ifName = ascii "lo" then interfaceLoop world i s (j+1) rest
    else if world.connect (i,some j) then connects (i,some j) s
    else interfaceLoop world i s (j+1) rest

def addressLoop (world : World) (ifIdx : List Interface) (s : State) : Nat → List Family → State × Bool
  | _,[] => (s,true)
  | i,family :: rest =>
    if !world.socket i then addressLoop world ifIdx s (i+1) rest
    else
      let s := openSocket i s
      match family with
      | .inet6 =>
        let s := interfaceLoop world i s 0 ifIdx
        if s.connection then (s,false) else addressLoop world ifIdx (closeSocket i s) (i+1) rest
      | .inet =>
        if world.connect (i,none) then (connects (i,none) s,false)
        else if s.connection then (s,false)
        else addressLoop world ifIdx (closeSocket i s) (i+1) rest

-- `failed` tells whether Connection Failed is printed.
structure Result where
  connected : Option Candidate
  opened : List Nat
  failed : Bool

def main (world : World) (ifIdx : List Interface) (result : List Family) : Result :=
  let (s,failed) := addressLoop world ifIdx ⟨false,[],none⟩ 0 result
  ⟨s.connected,s.opened,failed⟩

def scopes (j : Nat) (ifIdx : List Interface) : List Nat :=
  ((ifIdx.zipIdx j).filter fun ifp => decide (ifp.1.ifName ≠ ascii "lo")).map Prod.snd

def attempts (ifIdx : List Interface) (address : Family × Nat) : List Candidate :=
  match address.1 with
  | .inet => [(address.2,none)]
  | .inet6 => (scopes 0 ifIdx).map fun j => (address.2,some j)

def candidates (ifIdx : List Interface) (i : Nat) (result : List Family) : List Candidate :=
  (result.zipIdx i).flatMap (attempts ifIdx)

def succeeds (world : World) (candidate : Candidate) : Bool := world.socket candidate.1 && world.connect candidate

def firstOf (world : World) (ifIdx : List Interface) (result : List Family) : Option Candidate :=
  (candidates ifIdx 0 result).find? (succeeds world)

theorem scopes_cons (j : Nat) (ifp : Interface) (rest : List Interface) :
    scopes j (ifp :: rest) = if ifp.ifName = ascii "lo" then scopes (j+1) rest else j :: scopes (j+1) rest := by
  unfold scopes
  rw [List.zipIdx_cons]
  by_cases loopback : ifp.ifName = ascii "lo"
  · rw [if_pos loopback,List.filter_cons_of_neg (by simp [loopback])]
  · rw [if_neg loopback,List.filter_cons_of_pos (by simp [loopback]),List.map_cons]

theorem interfaceLoop_first (world : World) (i : Nat) (s : State) (j : Nat) (ifIdx : List Interface) :
    interfaceLoop world i s j ifIdx =
      (((scopes j ifIdx).map fun j => (i,some j)).find? world.connect).elim s fun candidate => connects candidate s := by
  induction ifIdx generalizing j with
  | nil => rfl
  | cons ifp rest ih =>
    rw [interfaceLoop,scopes_cons]
    by_cases loopback : ifp.ifName = ascii "lo"
    · rw [if_pos loopback,if_pos loopback,ih]
    · rw [if_neg loopback,if_neg loopback,List.map_cons,List.find?_cons]
      cases answer : world.connect (i,some j) with
      | true => rfl
      | false => rw [ih]; rfl

theorem attempts_address (member : candidate ∈ attempts ifIdx (family,i)) : candidate.1 = i := by
  cases family with
  | inet => rw [List.mem_singleton.mp member]
  | inet6 => obtain ⟨j,_,rfl⟩ := List.mem_map.mp member; rfl

theorem find_congr {list : List α} {p q : α → Bool} (same : ∀ a ∈ list, p a = q a) : list.find? p = list.find? q := by
  induction list with
  | nil => rfl
  | cons a rest ih =>
    rw [List.find?_cons,List.find?_cons,same a List.mem_cons_self,ih fun b member => same b (List.mem_cons_of_mem a member)]

theorem find_opened (opened : world.socket i = true) (ifIdx : List Interface) (family : Family) :
    (attempts ifIdx (family,i)).find? (succeeds world) = (attempts ifIdx (family,i)).find? world.connect := by
  apply find_congr
  intro candidate member
  rw [succeeds,attempts_address member,opened,Bool.true_and]

theorem find_unopened (unopened : world.socket i = false) (ifIdx : List Interface) (family : Family) :
    (attempts ifIdx (family,i)).find? (succeeds world) = none := by
  rw [List.find?_eq_none]
  intro candidate member
  rw [succeeds,attempts_address member,unopened,Bool.false_and]
  exact Bool.false_ne_true

theorem close_opened (i : Nat) (s : State) : closeSocket i (openSocket i s) = s := by
  simp [closeSocket,openSocket]

theorem candidates_cons (ifIdx : List Interface) (i : Nat) (family : Family) (rest : List Family) :
    candidates ifIdx i (family :: rest) = attempts ifIdx (family,i) ++ candidates ifIdx (i+1) rest := by
  rw [candidates,List.zipIdx_cons,List.flatMap_cons]
  rfl

-- One address: the first connect that succeeds ends the loop, else its socket
-- is closed and the next one is tried.
theorem addressLoop_turn (opened : world.socket i = true) (searching : s.connection = false) (ifIdx : List Interface)
    (family : Family) (rest : List Family) :
    addressLoop world ifIdx s i (family :: rest) =
      ((attempts ifIdx (family,i)).find? world.connect).elim (addressLoop world ifIdx s (i+1) rest)
        fun candidate => (connects candidate (openSocket i s),false) := by
  have unconnected : (openSocket i s).connection = false := searching
  rw [addressLoop,opened]
  simp only [Bool.not_true,Bool.false_eq_true,if_false]
  cases family with
  | inet =>
    simp only [attempts,unconnected,close_opened,List.find?_cons,List.find?_nil]
    cases world.connect (i,none) <;> rfl
  | inet6 =>
    simp only [attempts,interfaceLoop_first]
    cases ((scopes 0 ifIdx).map fun j => (i,some j)).find? world.connect with
    | none => simp only [Option.elim_none,unconnected,close_opened,Bool.false_eq_true,if_false]
    | some candidate => rfl

theorem addressLoop_first (searching : s.connection = false) (i : Nat) (result : List Family) :
    addressLoop world ifIdx s i result =
      ((candidates ifIdx i result).find? (succeeds world)).elim (s,true)
        fun candidate => (connects candidate (openSocket candidate.1 s),false) := by
  induction result generalizing i with
  | nil => rfl
  | cons family rest ih =>
    rw [candidates_cons,List.find?_append]
    cases answer : world.socket i with
    | false =>
      rw [find_unopened answer,Option.none_or,← ih (i+1),addressLoop,answer]
      rfl
    | true =>
      rw [find_opened answer,addressLoop_turn answer searching]
      cases found : (attempts ifIdx (family,i)).find? world.connect with
      | none => rw [Option.none_or,Option.elim_none,ih (i+1)]
      | some candidate =>
        have address := attempts_address (List.mem_of_find?_eq_some found)
        rw [Option.some_or,Option.elim_some,Option.elim_some,address]

theorem main_first (world : World) (ifIdx : List Interface) (result : List Family) :
    (main world ifIdx result).connected = firstOf world ifIdx result ∧
      (main world ifIdx result).opened = (firstOf world ifIdx result).toList.map Prod.fst ∧
      (main world ifIdx result).failed = (firstOf world ifIdx result).isNone := by
  have ends : addressLoop world ifIdx ⟨false,[],none⟩ 0 result = _ := addressLoop_first rfl 0 result
  unfold main firstOf
  rw [ends]
  cases (candidates ifIdx 0 result).find? (succeeds world) with
  | none => exact ⟨rfl,rfl,rfl⟩
  | some candidate => exact ⟨rfl,rfl,rfl⟩

example :
    main ⟨fun _ => true,fun candidate => decide (candidate = (1,some 2))⟩
      [⟨1,ascii "lo"⟩,⟨2,ascii "eth0"⟩,⟨3,ascii "eth1"⟩] [.inet,.inet6,.inet] = ⟨some (1,some 2),[1],false⟩ := rfl

end NetworkEx.ConnectOrder
