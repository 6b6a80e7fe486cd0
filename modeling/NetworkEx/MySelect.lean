import Mathlib.Data.Finset.Lattice.Basic
import Mathlib.Data.Finset.Range
import NetworkEx.CText

namespace NetworkEx.MySelect
open ByteStreams CText

-- What reading one descriptor brings: MAX_LINE - 1 bytes at a time, then less
-- or an error.
structure Reading where
  full : List Bytes
  last : Bytes

-- `opened` are the open calls that succeeded, by the number of the argument;
-- `passed` are the sets that select was called with.
structure State where
  opened : List (Nat × Nat)
  maxfd : Nat
  readfds : Finset Nat
  passed : List (Finset Nat)
  printed : List (Nat × Bytes)

def initial : State := ⟨[],0,∅,[],[]⟩

def openFile (argv : Nat → Bytes) (openRdwr : Bytes → Option Nat) (s : State) (i : Nat) : Option State :=
  (openRdwr (argv (i+1))).map fun fd =>
    {s with
      opened := s.opened ++ [(i+1,fd)]
      maxfd := if fd > s.maxfd then fd else s.maxfd
      readfds := insert fd s.readfds}

-- for(i=1; i<2; i++)
def openLoop (argv : Nat → Bytes) (openRdwr : Bytes → Option Nat) : Option State :=
  (List.range' 1 (2 - 1)).foldlM (openFile argv openRdwr) initial

-- A descriptor is tested before it is put back.
def readDescriptor (reads : Nat → Reading) (done : Finset Nat × List (Nat × Bytes)) (i : Nat) :
    Finset Nat × List (Nat × Bytes) :=
  (insert i done.1,done.2 ++ if i ∈ done.1 then ((reads i).full ++ [(reads i).last]).map fun text => (i,text) else [])

def ReadLine (maxfd : Nat) (readfds : Finset Nat) (reads : Nat → Reading) : Finset Nat × List (Nat × Bytes) :=
  (List.range maxfd).foldl (readDescriptor reads) (readfds,[])

-- What select makes of the set, which a failed one leaves as it is, and what
-- the reads behind it bring.
structure Turn where
  ready : Option (Finset Nat)
  reads : Nat → Reading

def turn (s : State) (t : Turn) : State :=
  let readfds := match t.ready with
    | some ready => s.readfds ∩ ready
    | none => s.readfds
  let (set,shown) := ReadLine (s.maxfd+1) readfds t.reads
  {s with readfds := set,passed := s.passed ++ [s.readfds],printed := s.printed ++ shown}

-- None where main returns for an open that failed.
def main (argv : Nat → Bytes) (openRdwr : Bytes → Option Nat) (turns : List Turn) : Option State :=
  (openLoop argv openRdwr).map fun s => turns.foldl turn s

def Monitored (s : State) : Prop :=
  ∃ a b, (1,a) ∈ s.opened ∧ (2,b) ∈ s.opened ∧ ∀ set ∈ s.passed, set = {a,b}

theorem fold_set (reads : Nat → Reading) (descriptors : List Nat) (done : Finset Nat × List (Nat × Bytes)) :
    k ∈ (descriptors.foldl (readDescriptor reads) done).1 ↔ k ∈ done.1 ∨ k ∈ descriptors := by
  induction descriptors generalizing done with
  | nil => simp
  | cons i rest ih =>
    rw [List.foldl_cons,ih,readDescriptor,Finset.mem_insert,List.mem_cons]
    constructor
    · rintro ((same | before) | later)
      · exact .inr (.inl same)
      · exact .inl before
      · exact .inr (.inr later)
    · rintro (before | same | later)
      · exact .inl (.inr before)
      · exact .inl (.inl same)
      · exact .inr later

theorem readLine_set (inside : readfds ⊆ Finset.range maxfd) (reads : Nat → Reading) :
    (ReadLine maxfd readfds reads).1 = Finset.range maxfd := by
  ext k
  rw [ReadLine,fold_set,List.mem_range,Finset.mem_range]
  exact ⟨fun known => known.elim (fun before => Finset.mem_range.mp (inside before)) id,.inr⟩

theorem turn_set (inside : s.readfds ⊆ Finset.range (s.maxfd+1)) (t : Turn) :
    (turn s t).readfds = Finset.range (s.maxfd+1) := by
  apply readLine_set
  split
  · exact Finset.inter_subset_left.trans inside
  · exact inside

theorem turns_passed (full : s.readfds = Finset.range (s.maxfd+1)) (turns : List Turn) :
    (turns.foldl turn s).passed = s.passed ++ List.replicate turns.length (Finset.range (s.maxfd+1)) ∧
      (turns.foldl turn s).opened = s.opened := by
  induction turns generalizing s with
  | nil => exact ⟨(List.append_nil _).symm,rfl⟩
  | cons t rest ih =>
    have again : (turn s t).readfds = Finset.range (s.maxfd+1) := turn_set full.subset t
    obtain ⟨passed,opened⟩ := ih (s := turn s t) again
    refine ⟨?_,opened⟩
    have added : (turn s t).passed = s.passed ++ [Finset.range (s.maxfd+1)] := by rw [← full]; rfl
    have same : (turn s t).maxfd = s.maxfd := rfl
    rw [List.foldl_cons,passed,added,same,List.append_assoc,List.length_cons,List.replicate_succ]
    rfl

def sets (fd : Nat) : List Turn → List (Finset Nat)
  | [] => []
  | _ :: rest => {fd} :: List.replicate rest.length (Finset.range (fd+1))

theorem openLoop_second (second : openRdwr (argv 2) = some fd) :
    openLoop argv openRdwr = some ⟨[(2,fd)],fd,{fd},[],[]⟩ := by
  have largest : (if fd > initial.maxfd then fd else initial.maxfd) = fd := by
    by_cases positive : fd > initial.maxfd
    · exact if_pos positive
    · rw [if_neg positive]
      exact (Nat.le_zero.mp (Nat.le_of_not_lt positive)).symm
  have opened : openFile argv openRdwr initial 1 = some ⟨[(2,fd)],fd,{fd},[],[]⟩ := by
    rw [openFile,second,Option.map_some,largest]
    rfl
  have once : openLoop argv openRdwr = (openFile argv openRdwr initial 1).bind some := rfl
  rw [once,opened]
  rfl

theorem never_monitored (second : openRdwr (argv 2) = some fd) (turns : List Turn) :
    ∃ s, main argv openRdwr turns = some s ∧ s.opened = [(2,fd)] ∧ s.passed = sets fd turns ∧ ¬ Monitored s := by
  have unmonitored : ∀ s : State, s.opened = [(2,fd)] → ¬ Monitored s := by
    rintro s opened ⟨a,b,first,_⟩
    rw [opened] at first
    simp at first
  rw [main,openLoop_second second,Option.map_some]
  refine ⟨_,rfl,?_⟩
  cases turns with
  | nil => exact ⟨rfl,rfl,unmonitored _ rfl⟩
  | cons t rest =>
    have inside : ({fd} : Finset Nat) ⊆ Finset.range (fd+1) := by simp
    obtain ⟨passed,opened⟩ := turns_passed (turn_set (s := ⟨[(2,fd)],fd,{fd},[],[]⟩) inside t) rest
    exact ⟨opened,passed,unmonitored _ opened⟩

def files (name : Bytes) : Option Nat := if name = ascii "a" then some 3 else some 4

def names (i : Nat) : Bytes := if i = 1 then ascii "a" else ascii "b"

def secondReady : Turn := ⟨some {4},fun _ => ⟨[],ascii "x"⟩⟩

theorem never_monitored_two :
    ∃ s, main names files [secondReady] = some s ∧ s.opened = [(2,4)] ∧ s.passed = sets 4 [secondReady] ∧ ¬ Monitored s :=
  never_monitored (by decide) [secondReady]

theorem first_file_unopened :
    (files (names 1)).isSome ∧ (files (names 2)).isSome ∧
    (main names files [secondReady,secondReady]).map (fun s => (s.opened,s.passed)) =
      some ([(2,4)],[{4},{0,1,2,3,4}]) ∧
    ∀ s, main names files [secondReady,secondReady] = some s → ¬ Monitored s := by
  have ends : (main names files [secondReady,secondReady]).map (fun s => (s.opened,s.passed)) =
      some ([(2,4)],[{4},{0,1,2,3,4}]) := by decide
  refine ⟨by decide,by decide,ends,?_⟩
  rintro s ran ⟨a,b,first,_⟩
  rw [ran,Option.map_some,Option.some.injEq,Prod.mk.injEq] at ends
  rw [ends.1] at first
  simp at first

end NetworkEx.MySelect
