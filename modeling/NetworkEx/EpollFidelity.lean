import NetworkEx.EpollChat

namespace NetworkEx.EpollFidelity
open ByteStreams CText ChatSockets TransitionRuns EpollChat

inductive DataModel where
  | ilp32
  | lp64
  deriving DecidableEq

def sizeofPointer : DataModel → Nat
  | .ilp32 => 4
  | .lp64 => 8

-- `user_data = malloc(sizeof(user_data))` asks for the room of a pointer. The
-- name starts behind the four bytes of fd; none where it runs out of the block.
def newUdata (model : DataModel) (clientfd : Nat) : Option Udata :=
  (sprintf (sizeofPointer model - 4) (userName clientfd)).map fun name => ⟨clientfd,name⟩

def line (fd : Nat) (bytes : Bytes) : Bytes := userName fd ++ 32 :: bytes

def registered (s : State) : List Nat := addressees (fun fd => s.userFds fd = 1) s.conns 0 maxClients

-- The text in send_msg's buffer is all of what was received, and stays inside.
def Formatted (fd : Nat) (chunk : Bytes) : Prop :=
  (lineText (userName fd) chunk).bind cstring = some (line fd chunk)

def Relayed (listenfd : Nat) (s : State) (fd : Nat) (chunk : Bytes) : Prop :=
  ∃ after, run (step listenfd) s (.handle none :: List.replicate (maxClients+1) .write) = some after ∧
    after.writes = s.writes ++ (registered s).map fun k => (k,line fd chunk)

structure Faithful (model : DataModel) (listenfd : Nat) (s : State) (fd : Nat) (chunk : Bytes) : Prop where
  built : newUdata model fd = some ⟨fd,userName fd⟩
  formatted : Formatted fd chunk
  relayed : Relayed listenfd s fd chunk

structure Reported (s : State) (fd : Nat) (chunk : Bytes) : Prop where
  event : ∃ addr rest, s.pc = .batch (.ptr addr :: rest) ∧ s.heap addr = some ⟨fd,userName fd⟩
  data : ∃ c, s.conns fd = some c ∧ c.read = .data chunk

theorem userName_length (small : fd < 2 ^ 31) : 7 ≤ (userName fd).length ∧ (userName fd).length ≤ 17 := by
  have some : 0 < (decimal fd).length := List.length_pos_of_ne_nil (decimalNat_ne_nil fd)
  have number : (decimal fd).length ≤ 11 := decimal_length (by decide) (by simp; omega)
  have literals : (ascii "user(").length = 5 ∧ (ascii ")").length = 1 := by decide
  simp only [userName,List.length_append,literals]
  omega

theorem userName_clean (fd : Nat) : 0 ∉ userName fd := by
  have literals : (0 : UInt8) ∉ ascii "user(" ∧ (0 : UInt8) ∉ ascii ")" := by decide
  simp [userName,decimal_clean,literals]

theorem newUdata_overruns (model : DataModel) (small : fd < 2 ^ 31) : newUdata model fd = none := by
  have long := (userName_length small).1
  have room : ¬ (userName fd).length < sizeofPointer model - 4 := by
    cases model <;> simp only [sizeofPointer] <;> omega
  rw [newUdata,sprintf,if_neg room,Option.map_none]

theorem lineText_parts (printed : lineText (userName fd) chunk = some text) :
    ∃ msg, received chunk = some msg ∧ text = overlay (line fd msg) (List.replicate (MAXLINE + 24) 0) ∧
      (line fd msg).length < MAXLINE + 24 := by
  simp only [lineText,Option.bind_eq_bind,Option.bind_eq_some_iff,pure,Option.some.injEq] at printed
  obtain ⟨msg,isString,shown,fits,rfl⟩ := printed
  obtain ⟨rfl,room⟩ := sprintf_parts fits
  have same : userName fd ++ [32] ++ msg = line fd msg := by simp [line]
  rw [same] at room ⊢
  exact ⟨msg,isString,rfl,room⟩

theorem line_room (small : fd < 2 ^ 31) (fits : msg.length ≤ MAXLINE) : (line fd msg).length < MAXLINE + 24 := by
  have name := (userName_length small).2
  simp only [line,List.length_append,List.length_cons]
  omega

theorem line_clean (clean : 0 ∉ msg) : 0 ∉ line fd msg := by
  simp [line,userName_clean fd,clean]

theorem formatted_exact (small : fd < 2 ^ 31) (fits : chunk.length ≤ MAXLINE) :
    Formatted fd chunk ↔ chunk.length < MAXLINE ∧ 0 ∉ chunk := by
  constructor
  · intro formatted
    obtain ⟨text,printed,same⟩ := Option.bind_eq_some_iff.mp formatted
    obtain ⟨msg,isString,rfl,room⟩ := lineText_parts printed
    have clean : 0 ∉ msg := (cstring_parts isString).1
    rw [cstring_cleared room (line_clean clean)] at same
    have whole : msg = chunk := by
      have lines := List.append_cancel_left (Option.some.inj same)
      exact (List.cons.inj lines).2
    subst whole
    have ended : (received msg).isSome := by rw [isString]; rfl
    exact ⟨((received_isSome msg).mp ended).resolve_right clean,clean⟩
  · intro both
    obtain ⟨short,clean⟩ := both
    have room := line_room small fits
    have printed : lineText (userName fd) chunk = some (overlay (line fd chunk) (List.replicate (MAXLINE + 24) 0)) := by
      have same : userName fd ++ [32] ++ chunk = line fd chunk := by simp [line]
      rw [lineText,received_short short clean,Option.bind_eq_bind,Option.bind_some,same,sprintf_fits room]
      rfl
    rw [Formatted,printed,Option.bind_some,cstring_cleared room (line_clean clean)]

theorem writeTurn_padded (looping : s.pc = .broadcast addr text i rest) (long : text.length = MAXLINE + 24)
    (stepped : step listenfd s .write = some next) :
    (∃ sent, next.writes = s.writes ++ sent ∧ ∀ entry ∈ sent, entry.2.length = MAXLINE + 24) ∧
      (next.pc = .broadcast addr text (i+1) rest ∨ step listenfd next .write = none) := by
  rw [write_step looping] at stepped
  cases stepped
  unfold writeTurn
  split
  · split
    · split
      · exact ⟨⟨[],by simp,by simp⟩,.inl rfl⟩
      · split
        · exact ⟨⟨[],by simp,by simp⟩,.inr rfl⟩
        · exact ⟨⟨[(i,text)],rfl,by simp [long]⟩,.inl rfl⟩
    · exact ⟨⟨[],by simp,by simp⟩,.inl rfl⟩
  · exact ⟨⟨[],by simp,by simp⟩,.inr rfl⟩

theorem written_padded (looping : s.pc = .broadcast addr text i rest) (long : text.length = MAXLINE + 24)
    (ran : run (step listenfd) s (List.replicate n .write) = some after) :
    ∃ sent, after.writes = s.writes ++ sent ∧ ∀ entry ∈ sent, entry.2.length = MAXLINE + 24 := by
  induction n generalizing s i with
  | zero => cases ran; exact ⟨[],by simp,by simp⟩
  | succ n ih =>
    rw [List.replicate_succ] at ran
    obtain ⟨next,stepped,onward⟩ := run_cons_some ran
    obtain ⟨⟨first,written,padded⟩,again | stopped⟩ := writeTurn_padded looping long stepped
    · obtain ⟨later,grown,rest_padded⟩ := ih again onward
      refine ⟨first ++ later,by rw [grown,written,List.append_assoc],?_⟩
      intro entry member
      rcases List.mem_append.mp member with old | new
      · exact padded entry old
      · exact rest_padded entry new
    · cases n with
      | zero => cases onward; exact ⟨first,written,padded⟩
      | succ n =>
        rw [List.replicate_succ,run_cons,stopped,Option.bind_none] at onward
        cases onward

theorem reported_step (reported : Reported s fd chunk) (stepped : step listenfd s (.handle none) = some next) :
    next.writes = s.writes ∧
      ((lineText (userName fd) chunk = none ∧ next.pc = .wild) ∨
        ∃ text addr rest, lineText (userName fd) chunk = some text ∧ next.pc = .broadcast addr text 0 rest) := by
  obtain ⟨⟨addr,rest,here,block⟩,c,opened,data⟩ := reported
  have served : step listenfd s (.handle none) = serveClient s addr rest := by simp only [step,here]
  rw [served,serveClient] at stepped
  simp only [block,opened,data] at stepped
  cases printed : lineText (userName fd) chunk with
  | none =>
    simp only [printed] at stepped
    cases stepped
    exact ⟨rfl,.inl ⟨rfl,rfl⟩⟩
  | some text =>
    simp only [printed] at stepped
    cases stepped
    exact ⟨rfl,.inr ⟨text,addr,rest,rfl,rfl⟩⟩

-- The whole buffer is longer than any line, so nobody is sent a line as it is.
theorem relayed_nobody (small : fd < 2 ^ 31) (reported : Reported s fd chunk) (relayed : Relayed listenfd s fd chunk) :
    registered s = [] := by
  obtain ⟨after,ran,written⟩ := relayed
  obtain ⟨mid,stepped,onward⟩ := run_cons_some ran
  obtain ⟨same,⟨_,wild⟩ | ⟨text,addr,rest,printed,looping⟩⟩ := reported_step reported stepped
  · have stopped : step listenfd mid .write = none := by simp only [step,wild]
    rw [List.replicate_succ,run_cons,stopped,Option.bind_none] at onward
    cases onward
  · obtain ⟨msg,_,rfl,room⟩ := lineText_parts printed
    have long : (overlay (line fd msg) (List.replicate (MAXLINE + 24) 0)).length = MAXLINE + 24 := by
      rw [overlay_length,List.length_replicate]
      omega
    obtain ⟨sent,grown,padded⟩ := written_padded looping long onward
    rw [same,written] at grown
    have lines := List.append_cancel_left grown
    cases members : registered s with
    | nil => rfl
    | cons k later =>
      obtain ⟨c,_,data⟩ := reported.data
      have short := line_room small (read_length data)
      have first : (k,line fd chunk) ∈ sent := by
        rw [← lines,members]
        exact List.mem_cons_self
      exact absurd (padded _ first) (Nat.ne_of_lt short)

theorem never_faithful (model : DataModel) (small : fd < 2 ^ 31) (reported : Reported s fd chunk) :
    newUdata model fd = none ∧ (Formatted fd chunk ↔ chunk.length < MAXLINE ∧ 0 ∉ chunk) ∧
      (Relayed listenfd s fd chunk → registered s = []) ∧ ¬ Faithful model listenfd s fd chunk := by
  obtain ⟨c,_,data⟩ := reported.data
  have overruns := newUdata_overruns model small
  refine ⟨overruns,formatted_exact small (read_length data),relayed_nobody small reported,?_⟩
  intro faithful
  have built := faithful.built
  rw [overruns] at built
  cases built

def talking (chunk : Bytes) : State :=
  {initial with
    pc := .batch [.ptr 100],conns := Function.update (fun _ => none) 5 (some ⟨chunk,false,false⟩),
    heap := Function.update (fun _ => none) 100 (some ⟨5,userName 5⟩),
    userFds := Function.update (fun _ => -1) 5 1}

theorem talking_reported : Reported (talking (ascii "hi\n")) 5 (ascii "hi\n") :=
  ⟨⟨100,[],rfl,rfl⟩,⟨ascii "hi\n",false,false⟩,rfl,by decide⟩

theorem never_faithful_hi : ¬ Faithful .lp64 3 (talking (ascii "hi\n")) 5 (ascii "hi\n") :=
  (never_faithful .lp64 (by decide) talking_reported).2.2.2

theorem name_overruns_block : newUdata .lp64 5 = none ∧ ¬ Relayed 3 (talking (ascii "hi\n")) 5 (ascii "hi\n") ∧
    ¬ Faithful .lp64 3 (talking (ascii "hi\n")) 5 (ascii "hi\n") := by
  have overruns : newUdata .lp64 5 = none := newUdata_overruns .lp64 (by decide)
  refine ⟨overruns,?_,?_⟩
  · intro relayed
    have nobody := relayed_nobody (by decide) talking_reported relayed
    have alone : registered (talking (ascii "hi\n")) = [5] := by decide +kernel
    rw [alone] at nobody
    cases nobody
  · intro faithful
    have built := faithful.built
    rw [overruns] at built
    cases built

end NetworkEx.EpollFidelity
