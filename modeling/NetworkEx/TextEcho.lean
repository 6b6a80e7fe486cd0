import NetworkEx.CText

namespace NetworkEx.TextEcho
open ByteStreams CText

def MAXLINE : Nat := 1024

-- The loop of one connection over the reads it gets, up to the end of the
-- stream or an error; none where a strlen runs past buf, which is cleared before
-- each read. The write to the blocking socket takes all it is given. Only a
-- loop that looks at the result stops after a write of no bytes.
def echoLoop (limit : Nat) (checked : Bool) : List (Piece limit) → Option Bytes
  | [] => some []
  | piece :: rest => do
    let text ← cstring (overlay piece.val (List.replicate MAXLINE 0))
    if checked ∧ text = [] then return []
    let later ← echoLoop limit checked rest
    return text ++ later

def echoServerFork (reads : List (Piece MAXLINE)) : Option Bytes := echoLoop MAXLINE false reads
def threadFunc (reads : List (Piece MAXLINE)) : Option Bytes := echoLoop MAXLINE false reads
def echoXinetd (reads : List (Piece (MAXLINE - 1))) : Option Bytes := echoLoop (MAXLINE - 1) true reads

theorem echoLoop_turn (short : piece.val.length < MAXLINE) (clean : 0 ∉ piece.val) :
    echoLoop limit checked (piece :: rest) = (echoLoop limit checked rest).map (piece.val ++ ·) := by
  have some : piece.val ≠ [] := List.ne_nil_of_length_pos piece.property.1
  rw [echoLoop,cstring_cleared short clean]
  cases echoLoop limit checked rest <;> simp [some]

theorem echoLoop_past (full : MAXLINE ≤ piece.val.length) (clean : 0 ∉ piece.val) :
    echoLoop limit checked (piece :: rest) = none := by
  have past : cstring (overlay piece.val (List.replicate MAXLINE 0)) = none := by
    rw [← Option.not_isSome_iff_eq_none,cstring_cleared_isSome]
    intro ends
    rcases ends with short | zero
    · exact absurd short (Nat.not_lt.mpr full)
    · exact clean zero
  rw [echoLoop,past]
  rfl

-- Every strlen stops, and then the loop is a copy, exactly where no read fills
-- buf.
theorem echoLoop_exact {reads : List (Piece limit)} (clean : 0 ∉ joined reads) :
    echoLoop limit checked reads = some (joined reads) ↔ ∀ piece ∈ reads, piece.val.length < MAXLINE := by
  induction reads with
  | nil => simp [echoLoop]
  | cons piece rest ih =>
    rw [joined_cons,List.mem_append,not_or] at clean
    rw [List.forall_mem_cons,joined_cons]
    by_cases short : piece.val.length < MAXLINE
    · rw [echoLoop_turn short clean.1,Option.map_eq_some_iff,← ih clean.2]
      simp [short]
    · rw [echoLoop_past (Nat.not_lt.mp short) clean.1]
      simp [short]

theorem piece_short (piece : Piece (MAXLINE - 1)) : piece.val.length < MAXLINE := Nat.lt_of_le_pred (by decide) piece.property.2

theorem textEcho_exact {stream : Bytes} {forkReads threadReads : List (Piece MAXLINE)}
    {xinetdReads : List (Piece (MAXLINE - 1))} (clean : 0 ∉ stream) (forked : joined forkReads = stream)
    (threaded : joined threadReads = stream) (served : joined xinetdReads = stream) :
    (echoServerFork forkReads = some stream ∧ threadFunc threadReads = some stream ∧ echoXinetd xinetdReads = some stream) ↔
      ∀ piece ∈ forkReads ++ threadReads, piece.val.length < MAXLINE := by
  have fork : echoServerFork forkReads = some stream ↔ ∀ piece ∈ forkReads, piece.val.length < MAXLINE := by
    rw [← forked] at clean ⊢
    exact echoLoop_exact clean
  have thread : threadFunc threadReads = some stream ↔ ∀ piece ∈ threadReads, piece.val.length < MAXLINE := by
    rw [← threaded] at clean ⊢
    exact echoLoop_exact clean
  have xinetd : echoXinetd xinetdReads = some stream := by
    rw [← served] at clean ⊢
    exact (echoLoop_exact clean).mpr fun piece _ => piece_short piece
  rw [fork,thread,List.forall_mem_append]
  simp [xinetd]

theorem textEcho_exact_pieces :
    echoServerFork [⟨ascii "one\ntwo",by decide⟩,⟨ascii "\n",by decide⟩] = some (ascii "one\ntwo\n") ∧
    threadFunc [⟨ascii "one\ntwo\n",by decide⟩] = some (ascii "one\ntwo\n") ∧
    echoXinetd [⟨ascii "o",by decide⟩,⟨ascii "ne\ntwo\n",by decide⟩] = some (ascii "one\ntwo\n") := by
  apply (textEcho_exact (by decide) (by decide) (by decide) (by decide)).mpr
  decide

def letters : Bytes := List.replicate MAXLINE 97

theorem letters_clean : 0 ∉ letters := by
  intro zero
  exact absurd (List.eq_of_mem_replicate zero) (by decide)

theorem full_segment : ∃ (reads : List (Piece MAXLINE)) (others : List (Piece (MAXLINE - 1))),
    joined reads = letters ∧ joined others = letters ∧ echoServerFork reads = none ∧ threadFunc reads = none ∧
      echoXinetd others = some letters := by
  have length : letters.length = MAXLINE := List.length_replicate
  let whole : Piece MAXLINE := ⟨letters,by rw [length]; decide⟩
  let others := blocks (MAXLINE - 1) (by decide) letters
  have joins : joined others = letters := joined_blocks _ _
  refine ⟨[whole],others,?_,joins,?_,?_,?_⟩
  · exact List.append_nil _
  · exact echoLoop_past (Nat.le_of_eq length.symm) letters_clean
  · exact echoLoop_past (Nat.le_of_eq length.symm) letters_clean
  · have clean := letters_clean
    rw [← joins] at clean ⊢
    exact (echoLoop_exact clean).mpr fun piece _ => piece_short piece

end NetworkEx.TextEcho
