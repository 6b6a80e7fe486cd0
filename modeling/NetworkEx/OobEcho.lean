import NetworkEx.CText
import NetworkEx.TransitionRuns

namespace NetworkEx.OobEcho
open ByteStreams CText TransitionRuns

def MAXLINE : Nat := 1024

inductive Pc where
  | accept
  | inner
  deriving DecidableEq

-- `opened` tells whether client_sockfd is; `echoed` is what was written to the
-- client of the last accept.
structure State where
  pc : Pc
  buf : Bytes
  opened : Bool
  echoed : Bytes

-- One accept of the outer loop, or one turn of the inner: what read brought
-- (none for the end of the stream or an error) and whether the write went well.
inductive Action where
  | accept (connected : Bool)
  | turn (read : Option (Piece MAXLINE)) (written : Bool)

def initial : State := ⟨.accept,List.replicate MAXLINE 0,false,[]⟩

-- None where the kernel gives no such answer, as bytes from a closed
-- descriptor, or where strlen runs past buf.
def step (s : State) : Action → Option State
  | .accept connected =>
    match s.pc with
    | .inner => none
    | .accept =>
      let buf := List.replicate MAXLINE 0
      if connected then some ⟨.inner,buf,true,[]⟩ else some {s with buf}
  | .turn read written =>
    match s.pc with
    | .accept => none
    | .inner =>
      match read with
      | none => some {s with opened := false}
      | some piece =>
        if s.opened then
          let buf := overlay piece.val s.buf
          (cstring buf).map fun text =>
            if written then {s with buf,echoed := s.echoed ++ text} else {s with buf,opened := false}
        else none

def session (reads : List (Piece MAXLINE)) : List Action :=
  .accept true :: reads.map fun piece => .turn (some piece) true

structure Served (reads : List (Piece MAXLINE)) : Prop where
  echoed : ∃ s, run step initial (session reads) = some s ∧ s.echoed = joined reads
  accepts : ∃ later s, run step initial (session reads ++ .turn none true :: later) = some s ∧ s.pc = .accept

def echo (text : Bytes) : List (Piece MAXLINE) → Bytes
  | [] => []
  | piece :: rest => overlay piece.val text ++ echo (overlay piece.val text) rest

def Inner (s : State) : Prop := s.pc = .inner

theorem inner_kept (inner : Inner s) (stepped : step s action = some next) : Inner next := by
  unfold Inner at inner
  cases action with
  | accept connected => simp only [step,inner] at stepped; cases stepped
  | turn read written =>
    simp only [step,inner] at stepped
    cases read with
    | none => cases stepped; rfl
    | some piece =>
      simp only at stepped
      split at stepped
      · obtain ⟨text,_,rfl⟩ := Option.map_eq_some_iff.mp stepped
        split <;> rfl
      · cases stepped

theorem inner_run (inner : Inner s) (ran : run step s actions = some after) : Inner after := by
  have keeps : ∀ s action next, Inner s → step s action = some next → Inner next :=
    fun s action next inner stepped => inner_kept inner stepped
  exact run_invariant keeps inner ran

theorem session_inner (ran : run step initial (session reads ++ later) = some after) : after.pc = .inner := by
  have connected : run step initial (session reads ++ later) =
      run step ⟨.inner,List.replicate MAXLINE 0,true,[]⟩ ((reads.map fun piece => .turn (some piece) true) ++ later) := rfl
  have inner : Inner ⟨.inner,List.replicate MAXLINE 0,true,[]⟩ := rfl
  rw [connected] at ran
  exact inner_run inner ran

theorem never_accepts (reads : List (Piece MAXLINE)) : ¬ Served reads := by
  intro served
  obtain ⟨later,s,ran,left⟩ := served.accepts
  rw [session_inner ran] at left
  cases left

theorem session_echoes (s : State) (inner : s.pc = .inner) (opened : s.opened = true)
    (held : s.buf = overlay text (List.replicate MAXLINE 0)) (room : text.length < MAXLINE) (old : 0 ∉ text)
    (clean : 0 ∉ joined reads) (short : ∀ piece ∈ reads, piece.val.length < MAXLINE) :
    ∃ after, run step s (reads.map fun piece => .turn (some piece) true) = some after ∧
      after.echoed = s.echoed ++ echo text reads := by
  induction reads generalizing s text with
  | nil => exact ⟨s,rfl,(List.append_nil _).symm⟩
  | cons piece rest ih =>
    rw [joined_cons,List.mem_append,not_or] at clean
    obtain ⟨here,later⟩ := List.forall_mem_cons.mp short
    have buffer : overlay piece.val s.buf = overlay (overlay piece.val text) (List.replicate MAXLINE 0) := by
      rw [held,overlay_overlay]
    have inside : (overlay piece.val text).length < MAXLINE := by
      rw [overlay_length]
      exact Nat.max_lt.mpr ⟨here,room⟩
    have stays := overlay_clean clean.1 old
    have string : cstring (overlay piece.val s.buf) = some (overlay piece.val text) := by
      rw [buffer,cstring_cleared inside stays]
    have stepped : step s (.turn (some piece) true) =
        some {s with buf := overlay piece.val s.buf,echoed := s.echoed ++ overlay piece.val text} := by
      simp only [step,inner,opened,string,Option.map_some,if_true]
    obtain ⟨after,ran,echoed⟩ :=
      ih {s with buf := overlay piece.val s.buf,echoed := s.echoed ++ overlay piece.val text} inner opened buffer inside stays
        clean.2 later
    refine ⟨after,?_,?_⟩
    · rw [List.map_cons,run_cons,stepped]
      exact ran
    · rw [echoed,echo,List.append_assoc]

theorem echo_long (text : Bytes) (reads : List (Piece MAXLINE)) : (joined reads).length ≤ (echo text reads).length := by
  induction reads generalizing text with
  | nil => exact Nat.le_refl _
  | cons piece rest ih =>
    have later := ih (overlay piece.val text)
    rw [joined_cons,echo,List.length_append,List.length_append,overlay_length]
    omega

theorem echo_stale (text : Bytes) (reads : List (Piece MAXLINE)) :
    echo text reads = joined reads ↔
      (∀ piece ∈ reads, text.length ≤ piece.val.length) ∧ reads.Pairwise fun a b => a.val.length ≤ b.val.length := by
  induction reads generalizing text with
  | nil => simp [echo]
  | cons piece rest ih =>
    rw [echo,joined_cons,List.forall_mem_cons,List.pairwise_cons]
    by_cases covers : text.length ≤ piece.val.length
    · rw [overlay_whole covers,List.append_cancel_left_eq,ih]
      constructor
      · intro both
        exact ⟨⟨covers,fun later member => Nat.le_trans covers (both.1 later member)⟩,both⟩
      · intro both
        exact both.2
    · constructor
      · intro same
        have lengths := congrArg List.length same
        have later := echo_long (overlay piece.val text) rest
        rw [List.length_append,List.length_append,overlay_length] at lengths
        omega
      · intro both
        exact absurd both.1.1 covers

theorem never_served (clean : 0 ∉ joined reads) (short : ∀ piece ∈ reads, piece.val.length < MAXLINE) :
    ((∃ s, run step initial (session reads) = some s ∧ s.echoed = joined reads) ↔
        reads.Pairwise fun a b => a.val.length ≤ b.val.length) ∧
      (∀ later s, run step initial (session reads ++ later) = some s → s.pc = .inner) ∧ ¬ Served reads := by
  refine ⟨?_,fun later s ran => session_inner ran,never_accepts reads⟩
  obtain ⟨after,ran,echoed⟩ := session_echoes ⟨.inner,List.replicate MAXLINE 0,true,[]⟩ rfl rfl
    (overlay_nil _).symm (by decide) (by simp) clean short
  have whole : run step initial (session reads) = some after := ran
  have stale := echo_stale [] reads
  simp only [List.length_nil,Nat.zero_le,implies_true,true_and] at stale
  rw [← stale,whole]
  constructor
  · rintro ⟨s,⟨⟩,same⟩
    rw [← same,echoed]
    rfl
  · intro same
    exact ⟨after,rfl,by rw [echoed,same]; rfl⟩

theorem never_served_hi : ¬ Served [⟨ascii "hi\n",by decide⟩] :=
  (never_served (by decide) (by decide)).2.2

theorem stale_byte_echoed :
    (run step initial (session [⟨ascii "abc",by decide⟩,⟨ascii "de",by decide⟩])).map State.echoed = some (ascii "abcdec") ∧
    ¬ Served [⟨ascii "abc",by decide⟩,⟨ascii "de",by decide⟩] := by
  exact ⟨by decide +kernel,never_accepts _⟩

end NetworkEx.OobEcho
