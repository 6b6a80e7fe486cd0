import NetworkEx.CText
import NetworkEx.StreamLines

namespace NetworkEx.MyShell
open ByteStreams CText StreamLines

def MAX_LINE : Nat := 256

-- Standard input as stdio has it. `offset` is the position in the file (or how
-- much has come), which the shell's children share, and `held` what the shell has
-- read and not taken yet.
structure Stdin where
  seeks : Bool
  file : Bytes
  offset : Nat
  held : Bytes

-- An empty buffer is filled by one read, which brings block bytes at most.
def Stdin.refill (block : Nat → Nat) (s : Stdin) : Stdin :=
  if s.held = [] then
    let piece := (s.file.drop s.offset).take (block s.offset)
    {s with held := piece,offset := s.offset + piece.length}
  else s

-- fgets where at most `limit` bytes fit: everything up to a newline, or to the
-- limit, or to the end.
def Stdin.fgets (block : Nat → Nat) : Nat → Stdin → Bytes × Stdin
  | 0,s => ([],s)
  | limit + 1,s =>
    let s := s.refill block
    match s.held with
    | [] => ([],s)
    | b :: later =>
      let s := {s with held := later}
      if b = 10 then ([b],s)
      else (b :: (Stdin.fgets block limit s).1,(Stdin.fgets block limit s).2)

-- The same of an input that comes once.
def fgets : Nat → Bytes → Bytes × Bytes
  | 0,stream => ([],stream)
  | _ + 1,[] => ([],[])
  | limit + 1,b :: stream =>
    if b = 10 then ([b],stream)
    else (b :: (fgets limit stream).1,(fgets limit stream).2)

-- The cleared buffer after fgets, which leaves it alone at the end of the input.
def buffer (line : Bytes) : Bytes := overlay (line ++ [0]) (List.replicate MAX_LINE 0)

-- str[strlen(str) - 1] = 0. None where that is not a place of the buffer.
def chop (buf : Bytes) : Option Bytes :=
  (cstring buf).bind fun str => if str.length = 0 then none else some (buf.set (str.length - 1) 0)

inductive Ended where
  | quit
  | outside
  deriving DecidableEq

-- What becomes of a turn's fork, and of execl in the child. A program that runs
-- may move the shared position.
inductive Fork where
  | none
  | execlFails
  | runs (moves : Nat → Nat)

def Fork.child : Fork → Bool
  | .none => false
  | _ => true

-- exit(0) after a failing execl gives back what the child's copy of the buffer
-- holds, where the input can seek.
def Fork.leaves (s : Stdin) : Fork → Stdin
  | .none => s
  | .execlFails => if s.seeks = true ∧ s.held.length ≤ s.offset then {s with offset := s.offset - s.held.length} else s
  | .runs moves => {s with offset := moves s.offset}

structure Outcome where
  commands : List Bytes
  ended : Ended
  deriving DecidableEq

theorem fgets_parts (limit : Nat) (stream : Bytes) : (fgets limit stream).1 ++ (fgets limit stream).2 = stream := by
  induction stream generalizing limit with
  | nil => cases limit <;> rfl
  | cons b stream ih =>
    cases limit with
    | zero => rfl
    | succ limit =>
      unfold fgets
      split
      · rfl
      · exact congrArg (b :: ·) (ih limit)

theorem fgets_fits (limit : Nat) (stream : Bytes) : (fgets limit stream).1.length ≤ limit := by
  induction stream generalizing limit with
  | nil => cases limit <;> exact Nat.zero_le _
  | cons b stream ih =>
    cases limit with
    | zero => exact Nat.zero_le _
    | succ limit =>
      unfold fgets
      split
      · exact Nat.succ_le_succ (Nat.zero_le _)
      · exact Nat.succ_le_succ (ih limit)

theorem fgets_line (quiet : 10 ∉ line) (fits : line.length < limit) (rest : Bytes) :
    fgets limit (line ++ 10 :: rest) = (line ++ [10],rest) := by
  induction line generalizing limit with
  | nil =>
    cases limit with
    | zero => exact absurd fits (Nat.lt_irrefl 0)
    | succ limit => simp [fgets]
  | cons b line ih =>
    obtain ⟨head,tail⟩ := not_or.mp fun newline => quiet (List.mem_cons.mpr newline)
    cases limit with
    | zero => exact absurd fits (Nat.not_lt_zero _)
    | succ limit =>
      rw [List.cons_append,fgets,if_neg (Ne.symm head),ih tail (Nat.lt_of_succ_lt_succ fits)]
      rfl

theorem buffer_parts (piece : Bytes) :
    buffer piece = piece ++ 0 :: List.replicate (MAX_LINE - (piece.length + 1)) 0 := by
  rw [buffer,overlay,List.drop_replicate,List.length_append,List.append_assoc]
  rfl

theorem buffer_string (piece : Bytes) : cstring (buffer piece) = some (untilNul piece) := by
  rw [buffer_parts,cstring_untilNul]

theorem chop_parts (chopped : chop buf = some left) :
    ∃ str, str ≠ [] ∧ cstring buf = some str ∧ cstring left = some str.dropLast := by
  obtain ⟨str,string,removed⟩ := Option.bind_eq_some_iff.mp chopped
  split at removed
  · cases removed
  · rename_i some_
    have present : str ≠ [] := fun none => some_ (congrArg List.length none)
    obtain ⟨clean,rest,rfl⟩ := cstring_parts string
    refine ⟨str,present,string,?_⟩
    have cut : (str ++ 0 :: rest).set (str.length - 1) 0 = str.dropLast ++ 0 :: 0 :: rest := by
      rw [List.set_append_left _ _ (by omega)]
      conv_lhs => rw [← List.dropLast_concat_getLast present]
      simp
    rw [← Option.some.inj removed,cut]
    exact cstring_terminated fun zero => clean (List.dropLast_subset _ zero)

theorem chop_isSome (string : cstring buf = some str) : (chop buf).isSome ↔ str ≠ [] := by
  rw [chop,string,Option.bind_some]
  cases str <;> simp

-- A turn that goes on has taken something of the input.
theorem chop_shorter (chopped : chop (buffer (fgets limit stream).1) = some left) :
    (fgets limit stream).2.length < stream.length := by
  have whole := congrArg List.length (fgets_parts limit stream)
  rw [List.length_append] at whole
  have some_ : (fgets limit stream).1 ≠ [] := by
    intro empty
    rw [empty] at chopped
    have nothing : chop (buffer []) = none := by decide
    cases nothing.symm.trans chopped
  have positive := List.length_pos_iff.mpr some_
  omega

-- What a turn adds to the ones behind it: a child that gives its command to execl.
def give (child : Bool) (command : Bytes) (later : Outcome) : Outcome :=
  if child then {later with commands := command :: later.commands} else later

@[simp] theorem give_ended (child : Bool) (command : Bytes) (later : Outcome) :
    (give child command later).ended = later.ended := by
  cases child <;> rfl

-- main's loop, from the turn-th turn on; none where `fuel` turns are not enough.
-- At the place outside the buffer the run has no meaning any more.
def loop (block : Nat → Nat) (forks : Nat → Fork) : Nat → Nat → Stdin → Option Outcome
  | 0,_,_ => none
  | fuel + 1,turn,s =>
    let taken := s.fgets block (MAX_LINE - 2)
    let buf := buffer taken.1
    if buf.take 5 = ascii "quit\n" then some ⟨[],.quit⟩
    else
      match chop buf with
      | none => some ⟨[],.outside⟩
      | some buf =>
        (loop block forks fuel (turn + 1) ((forks turn).leaves taken.2)).map
          (give (forks turn).child ((cstring buf).getD buf))

-- The loop over an input that comes once. `fork` says which forks have a child.
def shell (fork : Nat → Bool) (turn : Nat) (stream : Bytes) : Outcome :=
  let buf := buffer (fgets (MAX_LINE - 2) stream).1
  if buf.take 5 = ascii "quit\n" then ⟨[],.quit⟩
  else
    match chopped : chop buf with
    | none => ⟨[],.outside⟩
    | some buf =>
      give (fork turn) ((cstring buf).getD buf) (shell fork (turn + 1) (fgets (MAX_LINE - 2) stream).2)
termination_by stream.length
decreasing_by exact chop_shorter chopped

def lines (stream : Bytes) : List Bytes :=
  let parts := collect (· = 10) [] stream
  parts.1.map List.dropLast ++ if parts.2 = [] then [] else [parts.2]

def wanted (stream : Bytes) : List Bytes := (lines stream).takeWhile fun line => decide (line ≠ ascii "quit")

-- The shell comes to quit, with the lines before it.
structure Faithful (stream : Bytes) (outcome : Outcome) : Prop where
  quits : outcome.ended = .quit
  commands : outcome.commands = wanted stream

def opened (seeks : Bool) (stream : Bytes) : Stdin := ⟨seeks,stream,0,[]⟩

def Obeys (block : Nat → Nat) (forks : Nat → Fork) (seeks : Bool) (stream : Bytes) : Prop :=
  ∃ fuel outcome, loop block forks fuel 0 (opened seeks stream) = some outcome ∧ Faithful stream outcome

def Still (forks : Nat → Fork) (seeks : Bool) : Prop :=
  ∀ k, (forks k = .execlFails → seeks = false) ∧ ∀ moves, forks k = .runs moves → ∀ n, moves n = n

def Fits (line : Bytes) : Prop := 0 ∉ line ∧ line.length < MAX_LINE - 2

def Quits (stream : Bytes) (before : List Bytes) : Prop :=
  (∀ line ∈ before, Fits line ∧ 10 ∉ line ∧ line ≠ ascii "quit") ∧
    ∃ rest, stream = before.flatMap (· ++ [10]) ++ (ascii "quit\n" ++ rest)

def given (fork : Nat → Bool) : Nat → List Bytes → List Bytes
  | _,[] => []
  | turn,line :: rest => if fork turn then line :: given fork (turn + 1) rest else given fork (turn + 1) rest

theorem given_length (fork : Nat → Bool) (turn : Nat) (before : List Bytes) :
    (given fork turn before).length ≤ before.length := by
  induction before generalizing turn with
  | nil => exact Nat.le_refl _
  | cons line rest ih =>
    unfold given
    split
    · exact Nat.succ_le_succ (ih _)
    · exact Nat.le_succ_of_le (ih _)

theorem given_all (fork : Nat → Bool) (turn : Nat) (before : List Bytes) :
    given fork turn before = before ↔ ∀ k < before.length, fork (turn + k) = true := by
  induction before generalizing turn with
  | nil => simp [given]
  | cons line rest ih =>
    have turns : (∀ k < (line :: rest).length, fork (turn + k) = true) ↔
        fork turn = true ∧ ∀ k < rest.length, fork (turn + 1 + k) = true := by
      rw [List.length_cons,Nat.forall_lt_succ_left]
      simp only [Nat.add_zero,Nat.add_assoc,Nat.add_comm 1]
    rw [turns,given]
    split
    · rename_i child
      rw [List.cons_inj_right,ih,and_iff_right child]
    · rename_i none_
      refine iff_of_false ?_ fun all => none_ all.1
      intro same
      have short := given_length fork (turn + 1) rest
      have long := congrArg List.length same
      rw [List.length_cons] at long
      omega

theorem lines_line (quiet : 10 ∉ line) (rest : Bytes) : lines (line ++ 10 :: rest) = line :: lines rest := by
  have ended : Line (· = (10 : UInt8)) (line ++ [10]) := ⟨line,10,rfl,rfl,fun b member same => quiet (same ▸ member)⟩
  have whole : line ++ 10 :: rest = (line ++ [10]) ++ rest := by simp
  rw [lines,lines,whole,collect_append,collect_line ended]
  simp

theorem lines_quit (rest : Bytes) : lines (ascii "quit\n" ++ rest) = ascii "quit" :: lines rest := by
  have quiet : 10 ∉ ascii "quit" := by decide
  exact lines_line quiet rest

theorem wanted_line (quiet : 10 ∉ line) (other : line ≠ ascii "quit") (rest : Bytes) :
    wanted (line ++ 10 :: rest) = line :: wanted rest := by
  rw [wanted,lines_line quiet,List.takeWhile_cons_of_pos (by simpa using other)]
  rfl

theorem wanted_quit (rest : Bytes) : wanted (ascii "quit\n" ++ rest) = [] := by
  rw [wanted,lines_quit,List.takeWhile_cons_of_neg (by simp)]

theorem wanted_quits (quits : Quits stream before) : wanted stream = before := by
  obtain ⟨plain,rest,rfl⟩ := quits
  induction before with
  | nil => exact wanted_quit rest
  | cons line before ih =>
    obtain ⟨_,quiet,other⟩ := plain line List.mem_cons_self
    have later := ih fun other member => plain other (List.mem_cons_of_mem _ member)
    have parts : (line :: before).flatMap (· ++ [10]) ++ (ascii "quit\n" ++ rest) =
        line ++ 10 :: (before.flatMap (· ++ [10]) ++ (ascii "quit\n" ++ rest)) := by simp
    rw [parts,wanted_line quiet other,later]

theorem shell_turn (fork : Nat → Bool) (turn : Nat) (taken : fgets (MAX_LINE - 2) stream = (piece,rest)) :
    (buffer piece).take 5 = ascii "quit\n" ∧ shell fork turn stream = ⟨[],.quit⟩ ∨
    (buffer piece).take 5 ≠ ascii "quit\n" ∧
      (untilNul piece = [] ∧ shell fork turn stream = ⟨[],.outside⟩ ∨
        untilNul piece ≠ [] ∧ rest.length < stream.length ∧
          shell fork turn stream = give (fork turn) (untilNul piece).dropLast (shell fork (turn + 1) rest)) := by
  have string := buffer_string piece
  have inside := chop_isSome string
  obtain ⟨rfl,rfl⟩ := Prod.mk.inj taken
  rw [shell]
  by_cases quit : (buffer (fgets (MAX_LINE - 2) stream).1).take 5 = ascii "quit\n"
  · exact .inl ⟨quit,if_pos quit⟩
  · refine .inr ⟨quit,?_⟩
    rw [if_neg quit]
    split
    · rename_i chopped
      rw [chopped] at inside
      exact .inl ⟨by simpa using inside,rfl⟩
    · rename_i buf chopped
      obtain ⟨str,some_,whole,left⟩ := chop_parts chopped
      cases string.symm.trans whole
      rw [left,Option.getD_some]
      exact .inr ⟨some_,chop_shorter chopped,rfl⟩

theorem shell_quit (fork : Nat → Bool) (turn : Nat) (rest : Bytes) :
    shell fork turn (ascii "quit\n" ++ rest) = ⟨[],.quit⟩ := by
  have quiet : 10 ∉ ascii "quit" := by decide
  have taken : fgets (MAX_LINE - 2) (ascii "quit\n" ++ rest) = (ascii "quit\n",rest) :=
    fgets_line quiet (by decide) rest
  rcases shell_turn fork turn taken with ⟨_,ended⟩ | ⟨other,_⟩
  · exact ended
  · have same : (buffer (ascii "quit\n")).take 5 = ascii "quit\n" := by decide
    exact absurd same other

theorem buffer_quit (quiet : 10 ∉ line) (quit : (buffer (line ++ [10])).take 5 = ascii "quit\n") :
    line = ascii "quit" := by
  have parts := List.take_append_drop 5 (buffer (line ++ [10]))
  rw [quit,buffer_parts,List.append_assoc] at parts
  have same := congrArg lines parts
  rw [lines_quit] at same
  exact (List.cons.inj (same.trans (lines_line quiet _))).1.symm

theorem shell_line (fork : Nat → Bool) (turn : Nat) (fits : Fits line) (quiet : 10 ∉ line) (other : line ≠ ascii "quit")
    (rest : Bytes) : shell fork turn (line ++ 10 :: rest) = give (fork turn) line (shell fork (turn + 1) rest) := by
  have clean : 0 ∉ line ++ [10] := by simp [fits.1]
  have turned := shell_turn fork turn (fgets_line quiet fits.2 rest)
  rw [untilNul_clean clean,List.dropLast_concat] at turned
  rcases turned with ⟨quit,_⟩ | ⟨_,⟨empty,_⟩ | ⟨_,_,given⟩⟩
  · exact absurd (buffer_quit quiet quit) other
  · simp at empty
  · exact given

theorem shell_quits (fork : Nat → Bool) (turn : Nat) (quits : Quits stream before) :
    shell fork turn stream = ⟨given fork turn before,.quit⟩ := by
  obtain ⟨plain,rest,rfl⟩ := quits
  induction before generalizing turn with
  | nil => exact shell_quit fork turn rest
  | cons line before ih =>
    obtain ⟨fits,quiet,other⟩ := plain line List.mem_cons_self
    have later := ih (turn + 1) fun other member => plain other (List.mem_cons_of_mem _ member)
    have parts : (line :: before).flatMap (· ++ [10]) ++ (ascii "quit\n" ++ rest) =
        line ++ 10 :: (before.flatMap (· ++ [10]) ++ (ascii "quit\n" ++ rest)) := by simp
    rw [parts,shell_line fork turn fits quiet other,later,give,given]
    split <;> rfl

-- Without a newline there is no quit, so the input runs out first.
theorem shell_unterminated (fork : Nat → Bool) (turn : Nat) (open_ : 10 ∉ stream) :
    (shell fork turn stream).ended = .outside := by
  induction size : stream.length using Nat.strongRecOn generalizing stream turn with
  | ind length ih =>
    cases taken : fgets (MAX_LINE - 2) stream with
    | mk piece rest =>
      have parts := fgets_parts (MAX_LINE - 2) stream
      rw [taken] at parts
      rcases shell_turn fork turn taken with ⟨quit,_⟩ | ⟨_,⟨_,ended⟩ | ⟨_,shorter,given⟩⟩
      · have newline : 10 ∈ (buffer piece).take 5 := by
          rw [quit]
          decide
        have inside := List.mem_of_mem_take newline
        rw [buffer_parts] at inside
        refine absurd ?_ open_
        rw [← parts]
        simp at inside
        exact List.mem_append_left _ inside
      · rw [ended]
      · rw [given,give_ended]
        have later : 10 ∉ rest := by
          intro newline
          apply open_
          rw [← parts]
          exact List.mem_append_right _ newline
        exact ih _ (size ▸ shorter) (turn + 1) later rfl

theorem untilNul_fits (some_ : untilNul piece ≠ []) (inside : piece.length ≤ MAX_LINE - 2) :
    Fits (untilNul piece).dropLast := by
  obtain ⟨clean,_⟩ := cstring_parts (buffer_string piece)
  have short : (untilNul piece).length ≤ piece.length := (List.takeWhile_sublist _).length_le
  have positive := List.length_pos_iff.mpr some_
  refine ⟨fun zero => clean (List.dropLast_subset _ zero),?_⟩
  rw [List.length_dropLast]
  omega

theorem shell_fits (fork : Nat → Bool) (turn : Nat) (stream : Bytes) :
    ∀ command ∈ (shell fork turn stream).commands, Fits command := by
  induction size : stream.length using Nat.strongRecOn generalizing stream turn with
  | ind length ih =>
    cases taken : fgets (MAX_LINE - 2) stream with
    | mk piece rest =>
      have inside := fgets_fits (MAX_LINE - 2) stream
      rw [taken] at inside
      rcases shell_turn fork turn taken with ⟨_,ended⟩ | ⟨_,⟨_,ended⟩ | ⟨some_,shorter,given⟩⟩
      · simp [ended]
      · simp [ended]
      · have later := ih _ (size ▸ shorter) (turn + 1) _ rfl
        rw [given,give]
        split
        · exact List.forall_mem_cons.mpr ⟨untilNul_fits some_ inside,later⟩
        · exact later

theorem quits_of_wanted (quit : (shell fork turn stream).ended = .quit) (fit : ∀ line ∈ wanted stream, Fits line) :
    Quits stream (wanted stream) := by
  induction size : stream.length using Nat.strongRecOn generalizing stream turn with
  | ind length ih =>
    by_cases newline : 10 ∈ stream
    · obtain ⟨line,rest,rfl,quiet⟩ := List.eq_append_cons_of_mem newline
      by_cases other : line = ascii "quit"
      · subst other
        rw [show ascii "quit" ++ 10 :: rest = ascii "quit\n" ++ rest from rfl,wanted_quit]
        exact ⟨nofun,rest,rfl⟩
      · rw [wanted_line quiet other] at fit ⊢
        have here := fit line List.mem_cons_self
        rw [shell_line fork turn here quiet other,give_ended] at quit
        have shorter : rest.length < length := by
          rw [← size,List.length_append,List.length_cons]
          omega
        obtain ⟨plain,behind,parts⟩ := ih _ shorter quit (fun later member => fit later (List.mem_cons_of_mem _ member)) rfl
        refine ⟨List.forall_mem_cons.mpr ⟨⟨here,quiet,other⟩,plain⟩,behind,?_⟩
        conv_lhs => rw [parts]
        simp
    · cases (shell_unterminated fork turn newline).symm.trans quit

theorem shell_faithful (fork : Nat → Bool) (stream : Bytes) :
    Faithful stream (shell fork 0 stream) ↔ ∃ before, Quits stream before ∧ ∀ k < before.length, fork k = true := by
  have all : ∀ before, given fork 0 before = before ↔ ∀ k < before.length, fork k = true := by
    intro before
    simpa using given_all fork 0 before
  constructor
  · intro faithful
    have fit : ∀ line ∈ wanted stream, Fits line := by
      rw [← faithful.commands]
      exact shell_fits fork 0 stream
    have quits := quits_of_wanted faithful.quits fit
    refine ⟨wanted stream,quits,(all _).mp ?_⟩
    have commands := faithful.commands
    rwa [shell_quits fork 0 quits] at commands
  · rintro ⟨before,quits,children⟩
    have ran := shell_quits fork 0 quits
    rw [ran]
    refine ⟨rfl,?_⟩
    rw [wanted_quits quits]
    exact (all before).mpr children

-- What the shell will still read, if nobody moves its place.
def remaining (s : Stdin) : Bytes := s.held ++ s.file.drop s.offset

theorem refill_held {s : Stdin} (some_ : s.held ≠ []) (block : Nat → Nat) : s.refill block = s := if_neg some_

theorem refill_remaining (block : Nat → Nat) (s : Stdin) : remaining (s.refill block) = remaining s := by
  unfold Stdin.refill
  split
  · rename_i empty
    have front := List.prefix_iff_eq_append.mp (List.take_prefix (block s.offset) (s.file.drop s.offset))
    rw [List.drop_drop] at front
    simp only [remaining,empty,List.nil_append]
    exact front
  · rfl

theorem refill_empty {s : Stdin} (sizes : ∀ offset, 0 < block offset) (empty : (s.refill block).held = []) :
    remaining s = [] := by
  by_cases nothing : s.held = []
  · simp only [Stdin.refill,nothing,if_true,List.take_eq_nil_iff] at empty
    have room := sizes s.offset
    rcases empty with zero | past
    · omega
    · simp [remaining,nothing,past]
  · rw [refill_held nothing] at empty
    exact absurd empty nothing

theorem refill_seeks (block : Nat → Nat) (s : Stdin) : (s.refill block).seeks = s.seeks := by
  unfold Stdin.refill
  split <;> rfl

theorem fgets_remaining (sizes : ∀ offset, 0 < block offset) (limit : Nat) (s : Stdin) :
    (s.fgets block limit).1 = (fgets limit (remaining s)).1 ∧
      remaining (s.fgets block limit).2 = (fgets limit (remaining s)).2 ∧ (s.fgets block limit).2.seeks = s.seeks := by
  induction limit generalizing s with
  | zero =>
    rw [Stdin.fgets,fgets]
    exact ⟨rfl,rfl,rfl⟩
  | succ limit ih =>
    have whole := refill_remaining block s
    have seeks := refill_seeks block s
    cases held : (s.refill block).held with
    | nil =>
      have nothing := refill_empty sizes held
      rw [nothing] at whole ⊢
      simp only [Stdin.fgets,held]
      exact ⟨rfl,whole,seeks⟩
    | cons b later =>
      have parts : remaining s = b :: remaining {s.refill block with held := later} := by
        rw [← whole]
        simp [remaining,held]
      obtain ⟨piece,rest,same⟩ := ih {s.refill block with held := later}
      rw [parts]
      simp only [Stdin.fgets,held,fgets]
      split
      · exact ⟨rfl,rfl,seeks⟩
      · exact ⟨congrArg (b :: ·) piece,rest,same.trans seeks⟩

theorem leaves_still (still : Still forks s.seeks) (turn : Nat) :
    remaining ((forks turn).leaves s) = remaining s ∧ ((forks turn).leaves s).seeks = s.seeks := by
  obtain ⟨exits,runs⟩ := still turn
  cases kind : forks turn with
  | none => exact ⟨rfl,rfl⟩
  | execlFails => simp [Fork.leaves,exits kind]
  | runs moves => simp [Fork.leaves,runs moves kind,remaining]

-- Where nobody moves its place, the shell reads an input that comes once, and
-- needs a turn for each byte of it at most.
theorem loop_shell (sizes : ∀ offset, 0 < block offset) (still : Still forks s.seeks) (enough : (remaining s).length < fuel)
    (turn : Nat) : loop block forks fuel turn s = some (shell (fun k => (forks k).child) turn (remaining s)) := by
  induction fuel generalizing s turn with
  | zero => cases enough
  | succ fuel ih =>
    obtain ⟨piece,rest,seeks⟩ := fgets_remaining sizes (MAX_LINE - 2) s
    rw [loop,shell]
    simp only [piece]
    split
    · rfl
    · split
      · rename_i chopped
        split
        · rfl
        · rename_i found
          cases chopped.symm.trans found
      · rename_i left chopped
        split
        · rename_i found
          cases chopped.symm.trans found
        · rename_i buf found
          cases chopped.symm.trans found
          rw [← seeks] at still
          obtain ⟨kept,same⟩ := leaves_still still turn
          have shorter := chop_shorter chopped
          rw [← same] at still
          rw [ih still (by rw [kept,rest]; omega) (turn + 1),kept,rest]
          rfl

theorem loop_more (ran : loop block forks fuel turn s = some outcome) (more : Nat) :
    loop block forks (fuel + more) turn s = some outcome := by
  induction fuel generalizing turn s outcome with
  | zero => cases ran
  | succ fuel ih =>
    rw [Nat.succ_add,loop]
    rw [loop] at ran
    split at ran
    · rename_i quit
      rw [if_pos quit]
      exact ran
    · rename_i other
      rw [if_neg other]
      split at ran
      · exact ran
      · obtain ⟨later,onward,rfl⟩ := Option.map_eq_some_iff.mp ran
        rw [ih onward]
        rfl

theorem obeys_still (sizes : ∀ offset, 0 < block offset) (still : Still forks seeks) :
    Obeys block forks seeks stream ↔ Faithful stream (shell (fun k => (forks k).child) 0 stream) := by
  have stilled : Still forks (opened seeks stream).seeks := still
  have whole : remaining (opened seeks stream) = stream := rfl
  constructor
  · intro obeys
    obtain ⟨fuel,outcome,ran,faithful⟩ := obeys
    have enough : (remaining (opened seeks stream)).length < fuel + (stream.length + 1) := by
      rw [whole]
      omega
    have longer := (loop_more ran (stream.length + 1)).symm.trans (loop_shell sizes stilled enough 0)
    cases longer
    exact faithful
  · intro faithful
    exact ⟨stream.length + 1,_,loop_shell sizes stilled (Nat.lt_succ_self _) 0,faithful⟩

-- What the buffer holds no child can take away.

theorem fgets_held {s : Stdin} (quiet : 10 ∉ line) (fits : line.length < limit) (held : s.held = line ++ 10 :: tail) (block : Nat → Nat) :
    s.fgets block limit = (line ++ [10],{s with held := tail}) := by
  induction line generalizing limit s with
  | nil =>
    cases limit with
    | zero => exact absurd fits (Nat.lt_irrefl 0)
    | succ limit =>
      rw [Stdin.fgets,refill_held (by simp [held])]
      simp [held]
  | cons b line ih =>
    obtain ⟨head,later⟩ := not_or.mp fun newline => quiet (List.mem_cons.mpr newline)
    cases limit with
    | zero => exact absurd fits (Nat.not_lt_zero _)
    | succ limit =>
      rw [Stdin.fgets,refill_held (by simp [held])]
      simp only [held,List.cons_append,if_neg (Ne.symm head)]
      rw [ih later (Nat.lt_of_succ_lt_succ fits) rfl]

theorem leaves_held (fork : Fork) (s : Stdin) : (fork.leaves s).held = s.held := by
  cases fork with
  | none | runs => rfl
  | execlFails =>
    unfold Fork.leaves
    dsimp only
    split <;> rfl

theorem chop_line (clean : 0 ∉ line) : ∃ left, chop (buffer (line ++ [10])) = some left ∧ cstring left = some line := by
  have whole : 0 ∉ line ++ [10] := by simp [clean]
  have string := buffer_string (line ++ [10])
  rw [untilNul_clean whole] at string
  obtain ⟨left,chopped⟩ := Option.isSome_iff_exists.mp ((chop_isSome string).mpr (by simp))
  obtain ⟨str,_,same,cut⟩ := chop_parts chopped
  cases string.symm.trans same
  exact ⟨left,chopped,by rw [cut,List.dropLast_concat]⟩

theorem loop_held {s : Stdin} {before : List Bytes} (plain : ∀ line ∈ before, Fits line ∧ 10 ∉ line ∧ line ≠ ascii "quit")
    (held : s.held = before.flatMap (· ++ [10]) ++ (ascii "quit\n" ++ tail)) (turn : Nat) :
    loop block forks (before.length + 1) turn s = some ⟨given (fun k => (forks k).child) turn before,.quit⟩ := by
  induction before generalizing s turn with
  | nil =>
    have quiet : 10 ∉ ascii "quit" := by decide
    have line : s.held = ascii "quit" ++ 10 :: tail := held
    have same : (buffer (ascii "quit" ++ [10])).take 5 = ascii "quit\n" := by decide
    rw [List.length_nil,loop,fgets_held quiet (by decide) line]
    dsimp only
    rw [if_pos same]
    rfl
  | cons line before ih =>
    obtain ⟨fits,quiet,other⟩ := plain line List.mem_cons_self
    have first : s.held = line ++ 10 :: (before.flatMap (· ++ [10]) ++ (ascii "quit\n" ++ tail)) := by simp [held]
    obtain ⟨left,chopped,cut⟩ := chop_line fits.1
    rw [List.length_cons,loop,fgets_held quiet fits.2 first]
    dsimp only
    rw [if_neg fun quit => other (buffer_quit quiet quit),chopped]
    dsimp only
    rw [ih (fun later member => plain later (List.mem_cons_of_mem _ member)) (leaves_held _ _) (turn + 1),
      cut,Option.map_some,Option.getD_some,give,given]
    split <;> rfl

theorem fgets_refill (block : Nat → Nat) (limit : Nat) (s : Stdin) (some_ : (s.refill block).held ≠ []) :
    s.fgets block (limit + 1) = (s.refill block).fgets block (limit + 1) := by
  rw [Stdin.fgets,Stdin.fgets,refill_held some_]

theorem loop_refill {s : Stdin} (some_ : (s.refill block).held ≠ []) (fuel turn : Nat) :
    loop block forks fuel turn s = loop block forks fuel turn (s.refill block) := by
  cases fuel with
  | zero => rfl
  | succ fuel =>
    have same := fgets_refill block (MAX_LINE - 3) s some_
    rw [loop,loop]
    simp only [same,show MAX_LINE - 2 = MAX_LINE - 3 + 1 from rfl]

-- The lines up to quit are in the buffer before any child is there.
theorem obeys_block {before : List Bytes} (plain : ∀ line ∈ before, Fits line ∧ 10 ∉ line ∧ line ≠ ascii "quit")
    (parts : stream = before.flatMap (· ++ [10]) ++ ascii "quit\n" ++ rest)
    (short : (before.flatMap (· ++ [10]) ++ ascii "quit\n").length ≤ block 0)
    (children : ∀ k < before.length, (forks k).child = true) : Obeys block forks seeks stream := by
  have held : ((opened seeks stream).refill block).held =
      before.flatMap (· ++ [10]) ++ (ascii "quit\n" ++ rest.take (block 0 - (before.flatMap (· ++ [10]) ++ ascii "quit\n").length)) := by
    simp only [Stdin.refill,opened,if_true,List.drop_zero]
    rw [parts,List.take_append,List.take_of_length_le short,List.append_assoc]
  have some_ : ((opened seeks stream).refill block).held ≠ [] := by
    rw [held]
    simp [show ascii "quit\n" ≠ [] by decide]
  have quits : Quits stream before := ⟨plain,rest,by rw [parts,List.append_assoc]⟩
  have all : given (fun k => (forks k).child) 0 before = before := (given_all _ 0 before).mpr (by simpa using children)
  refine ⟨before.length + 1,_,(loop_refill some_ _ 0).trans (loop_held plain held 0),rfl,?_⟩
  rw [wanted_quits quits]
  exact all

-- Where no child moves the shell's place in its input, it obeys exactly where
-- fitting lines and a quit come first and every fork has a child. A child that
-- does is harmless as long as the quit came with the first read.
theorem shell_exact (sizes : ∀ offset, 0 < block offset) :
    (Still forks seeks → (Obeys block forks seeks stream ↔
      ∃ before, Quits stream before ∧ ∀ k < before.length, (forks k).child = true)) ∧
    ∀ before, Quits stream before → (∀ k < before.length, (forks k).child = true) →
      (before.flatMap (· ++ [10]) ++ ascii "quit\n").length ≤ block 0 → Obeys block forks seeks stream := by
  constructor
  · intro still
    rw [obeys_still sizes still]
    exact shell_faithful _ stream
  · rintro before ⟨plain,rest,parts⟩ children short
    exact obeys_block plain (by rw [parts,List.append_assoc]) short children

theorem shell_exact_two : Obeys (fun _ => 4096) (fun _ => .runs id) true (ascii "ls\nps\nquit\n") := by
  have still : Still (fun _ => .runs id) true := by
    intro k
    refine ⟨nofun,fun moves same n => ?_⟩
    cases same
    rfl
  refine ((shell_exact fun _ => by decide).1 still).mpr ⟨[ascii "ls",ascii "ps"],⟨?_,[],by decide⟩,fun _ _ => rfl⟩
  intro line member
  simp only [List.mem_cons,List.not_mem_nil,or_false] at member
  rcases member with rfl | rfl <;> exact ⟨⟨by decide,by decide⟩,by decide,by decide⟩

theorem last_letter_lost :
    shell (fun _ => true) 0 (ascii "ls") = ⟨[ascii "l"],.outside⟩ ∧ wanted (ascii "ls") = [ascii "ls"] ∧
      ¬ Obeys (fun _ => 4096) (fun _ => .runs id) true (ascii "ls") ∧
    loop (fun _ => 6) (fun _ => .execlFails) 40 0 (opened true (ascii "a\nb\nc\nquit\n")) = none ∧
      loop (fun _ => 6) (fun _ => .execlFails) 40 0 (opened false (ascii "a\nb\nc\nquit\n")) =
        some ⟨[ascii "a",ascii "b",ascii "c"],.quit⟩ := by
  have ends : shell (fun _ => true) 1 [] = ⟨[],.outside⟩ := by
    have nothing : fgets (MAX_LINE - 2) [] = ([],[]) := rfl
    rcases shell_turn (fun _ => true) 1 nothing with ⟨quit,_⟩ | ⟨_,⟨_,ended⟩ | ⟨_,shorter,_⟩⟩
    · exact absurd quit (by decide)
    · exact ended
    · exact absurd shorter (Nat.not_lt_zero _)
  have ran : shell (fun _ => true) 0 (ascii "ls") = ⟨[ascii "l"],.outside⟩ := by
    have taken : fgets (MAX_LINE - 2) (ascii "ls") = (ascii "ls",[]) := by decide
    rcases shell_turn (fun _ => true) 0 taken with ⟨quit,_⟩ | ⟨_,⟨empty,_⟩ | ⟨_,_,given⟩⟩
    · exact absurd quit (by decide)
    · exact absurd empty (by decide)
    · exact given.trans (congrArg (give true (ascii "l")) ends)
  refine ⟨ran,by decide,?_,by decide +kernel,by decide +kernel⟩
  have still : Still (fun _ => .runs id) true := by
    intro k
    refine ⟨nofun,fun moves same n => ?_⟩
    cases same
    rfl
  rw [obeys_still (fun _ => by decide) still]
  intro faithful
  have quits := faithful.quits
  rw [show (fun k : Nat => (Fork.runs id).child) = fun _ => true from rfl,ran] at quits
  cases quits

end NetworkEx.MyShell
