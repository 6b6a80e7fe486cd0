import NetworkEx.CText

namespace NetworkEx.MulticastSender
open ByteStreams CText

def MAXLINE : Nat := 1024

abbrev Name := {name : Bytes // name.length ≤ 15 ∧ 0 ∉ name}
abbrev Line := Piece 1000

-- %s byte by byte, up to and with the NUL, within one array; none where it
-- reads or writes behind the end.
def copyString (message : Bytes) (src dst : Nat) : Option Bytes :=
  match message[src]? with
  | none => none
  | some b =>
    if dst < message.length then
      if b = 0 then some (message.set dst 0) else copyString (message.set dst b) (src+1) (dst+1)
    else none
termination_by message.length - dst
decreasing_by rw [List.length_set]; omega

def sprintfOver (name message : Bytes) : Option Bytes :=
  copyString (overlay (name ++ ascii " : ") message) 0 (name.length + 3)

-- What sendto answers, as the size_t that it is compared as.
def unsigned (answer : Int) : Nat := (answer % 2 ^ 64).toNat

-- The parent's loop, a turn being what read brought (none for the end of the
-- input or an error) and what sendto answered: the datagrams, and whether it
-- returned.
def parent (name : Bytes) : List (Option Line × Int) → Option (List Bytes × Bool)
  | [] => some ([],false)
  | (line,answer) :: rest => do
    let message ← sprintfOver name (overlay (line.elim [] Subtype.val) (List.replicate MAXLINE 0))
    let string ← cstring message
    let datagram := if answer < 0 then [] else [string]
    if unsigned answer < string.length then return (datagram,true)
    let (later,returned) ← parent name rest
    return (datagram ++ later,returned)

def input (lines : List (Line × Int)) (answer : Int) : List (Option Line × Int) :=
  lines.map (fun turn => (some turn.1,turn.2)) ++ [(none,answer)]

-- One datagram for each line, up to a sendto that does not take all of it.
def announced (name : Bytes) : List (Line × Int) → List Bytes
  | [] => []
  | (line,answer) :: rest =>
    let text := name ++ ascii " : " ++ line.val
    if answer = text.length then text :: announced name rest else if answer < 0 then [] else [text]

def Sends (name : Bytes) (lines : List (Line × Int)) (answer : Int) : Prop :=
  parent name (input lines answer) = some (announced name lines,true)

-- The source lies behind the destination and every byte between them is
-- copied, so the copy meets no NUL before the end of the array.
theorem copy_runs_out (behind : src < dst) (inside : dst ≤ message.length) (nonzero : ∀ b ∈ message.take dst, b ≠ 0) :
    copyString message src dst = none := by
  induction left : message.length - dst generalizing message src dst with
  | zero =>
    have here : src < message.length := by omega
    have full : ¬ dst < message.length := by omega
    rw [copyString,List.getElem?_eq_getElem here]
    simp only [if_neg full]
  | succ left ih =>
    have here : src < message.length := by omega
    have room : dst < message.length := by omega
    have copied : message[src] ≠ 0 := by
      apply nonzero
      rw [List.mem_take_iff_getElem]
      exact ⟨src,by omega,rfl⟩
    rw [copyString,List.getElem?_eq_getElem here]
    simp only [if_pos room,if_neg copied]
    apply ih (Nat.succ_lt_succ behind)
    · rw [List.length_set]
      omega
    · have front : (message.take dst).length = dst := by rw [List.length_take]; omega
      have grown : (message.set dst message[src]).take (dst+1) = message.take dst ++ [message[src]] := by
        rw [List.set_eq_take_append_cons_drop,if_pos room,List.take_append,front,List.take_of_length_le (by omega),
          Nat.add_sub_cancel_left]
        rfl
      rw [grown]
      exact List.forall_mem_append.mpr ⟨nonzero,List.forall_mem_singleton.mpr copied⟩
    · rw [List.length_set]
      omega

theorem sprintf_runs_out (name : Name) (message : Bytes) : sprintfOver name.val message = none := by
  have literal : (ascii " : ").length = 3 ∧ 0 ∉ ascii " : " := by decide
  have length : (name.val ++ ascii " : ").length = name.val.length + 3 := by rw [List.length_append,literal.1]
  apply copy_runs_out (Nat.succ_pos _)
  · rw [overlay_length,length]
    exact Nat.le_max_left _ _
  · intro b member zero
    subst zero
    rw [overlay,List.take_left' length] at member
    rcases List.mem_append.mp member with named | between
    · exact name.property.2 named
    · exact literal.2 between

theorem parent_undefined (name : Name) (lines : List (Line × Int)) (answer : Int) :
    parent name.val (input lines answer) = none := by
  cases lines with
  | nil =>
    rw [input,List.map_nil,List.nil_append,parent,sprintf_runs_out]
    rfl
  | cons turn rest =>
    rw [input,List.map_cons,List.cons_append,parent,sprintf_runs_out]
    rfl

theorem never_sends (name : Name) (lines : List (Line × Int)) (answer : Int) :
    parent name.val (input lines answer) = none ∧ ¬ Sends name.val lines answer := by
  have undefined := parent_undefined name lines answer
  refine ⟨undefined,?_⟩
  intro sends
  rw [Sends,undefined] at sends
  cases sends

def kim : Name := ⟨ascii "kim",by decide⟩

theorem hi_unsent : announced kim.val [(⟨ascii "hi\n",by decide⟩,9)] = [ascii "kim : hi\n"] ∧
    parent kim.val (input [(⟨ascii "hi\n",by decide⟩,9)] 0) = none ∧ ¬ Sends kim.val [(⟨ascii "hi\n",by decide⟩,9)] 0 := by
  have undefined := parent_undefined kim [(⟨ascii "hi\n",by decide⟩,9)] 0
  refine ⟨by decide,undefined,?_⟩
  intro sends
  rw [Sends,undefined] at sends
  cases sends

end NetworkEx.MulticastSender
