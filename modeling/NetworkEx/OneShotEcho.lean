import Mathlib.Algebra.Order.BigOperators.Group.Finset
import NetworkEx.ChatSockets
import NetworkEx.TransitionRuns
import NetworkEx.UdomainServer

namespace NetworkEx.OneShotEcho
open ByteStreams CText TransitionRuns
open UdomainServer (filled shown)

def MAXBUF : Nat := 1024
def MAXLINE : Nat := 1024

-- What one read of the keyboard brings.
abbrev Text := {bytes : Bytes // bytes.length ≤ MAXLINE}

abbrev Beyond := {bytes : Bytes // 0 ∉ bytes}

-- A client that is killed at its prompt or while it waits is gone.
inductive Client where
  | typing
  | writing (buf : Bytes)
  | reading
  | printed (text : Bytes)
  | failed
  | gone
  deriving DecidableEq

def Client.running : Client → Bool
  | .typing | .writing _ | .reading => true
  | _ => false

-- A connection with the client at its end; `closed` is the server's close. What
-- the client typed and how far the two reads of it came are history.
structure Link where
  client : Client
  up : Bytes
  down : Bytes
  closed : Bool
  typed : Text
  took : Nat
  gave : Nat
  deriving DecidableEq

def Link.fresh : Link := ⟨.typing,[],[],false,⟨[],Nat.zero_le _⟩,0,0⟩

inductive Server where
  | accepting
  | reading (k : Nat)
  | writing (k : Nat) (buf : Bytes)
  | closing (k : Nat)
  deriving DecidableEq

-- Connections are numbered as they are established, which is the order in which
-- accept returns them.
structure State where
  server : Server
  established : Nat
  accepted : Nat
  links : Nat → Link

def initial : State := ⟨.accepting,0,0,fun _ => .fresh⟩

inductive Action where
  | connect
  | type (k : Nat) (text : Text)
  | send (k : Nat)
  | leave (k : Nat)
  | accept (succeeds : Bool)
  | read (count : Nat)
  | write
  | close
  | receive (k : Nat) (count : Nat) (beyond : Beyond)
  | fail (k : Nat)

def State.put (s : State) (k : Nat) (link : Link) : State := {s with links := Function.update s.links k link}

def Takes (count : Nat) (stream : Bytes) : Prop := 0 < count ∧ count ≤ MAXBUF ∧ count ≤ stream.length

instance (count : Nat) (stream : Bytes) : Decidable (Takes count stream) := inferInstanceAs (Decidable (_ ∧ _ ∧ _))

-- Both programs write the whole of their buffer. Where accept fails the read of
-- -1 fails too. Bytes that the server has left unread when it closes reset the
-- connection, which may cost the client its reply.
def step (s : State) : Action → Option State
  | .connect => some {s with established := s.established + 1}
  | .type k text =>
    if k < s.established ∧ (s.links k).client = .typing then
      some (s.put k {s.links k with client := .writing (filled text.val),typed := text})
    else none
  | .send k =>
    match (s.links k).client with
    | .writing buf => some (s.put k {s.links k with client := .reading,up := (s.links k).up ++ buf})
    | _ => none
  | .leave k =>
    if k < s.established ∧ (s.links k).client.running = true then some (s.put k {s.links k with client := .gone}) else none
  | .accept succeeds =>
    if s.server = .accepting then
      if succeeds then
        if s.accepted < s.established then some {s with server := .reading s.accepted,accepted := s.accepted + 1} else none
      else some s
    else none
  | .read count =>
    match s.server with
    | .reading k =>
      let link := s.links k
      if Takes count link.up then
        some {s.put k {link with up := link.up.drop count,took := count} with
          server := .writing k (filled (link.up.take count))}
      else if link.up = [] ∧ link.client = .gone then some {s with server := .closing k}
      else none
    | _ => none
  | .write =>
    match s.server with
    | .writing k buf => some {s.put k {s.links k with down := (s.links k).down ++ buf} with server := .closing k}
    | _ => none
  | .close =>
    match s.server with
    | .closing k => some {s.put k {s.links k with closed := true} with server := .accepting}
    | _ => none
  | .receive k count beyond =>
    let link := s.links k
    if link.client = .reading ∧ Takes count link.down then
      some (s.put k {link with
        client := .printed (shown (filled (link.down.take count)) beyond),down := link.down.drop count,gave := count})
    else none
  | .fail k =>
    let link := s.links k
    if link.client = .reading ∧ link.closed = true ∧ (link.up ≠ [] ∨ link.down = []) then
      some (s.put k {link with client := .failed})
    else none

inductive Stepped (s : State) : Action → State → Prop where
  | connects : Stepped s .connect {s with established := s.established + 1}
  | types (inside : k < s.established) (here : (s.links k).client = .typing) :
      Stepped s (.type k text) (s.put k {s.links k with client := .writing (filled text.val),typed := text})
  | sends (here : (s.links k).client = .writing buf) :
      Stepped s (.send k) (s.put k {s.links k with client := .reading,up := (s.links k).up ++ buf})
  | leaves (inside : k < s.established) (here : (s.links k).client.running = true) :
      Stepped s (.leave k) (s.put k {s.links k with client := .gone})
  | accepts (idle : s.server = .accepting) (more : s.accepted < s.established) :
      Stepped s (.accept true) {s with server := .reading s.accepted,accepted := s.accepted + 1}
  | refuses (idle : s.server = .accepting) : Stepped s (.accept false) s
  | takes (here : s.server = .reading k) (takes : Takes count (s.links k).up) :
      Stepped s (.read count) {s.put k {s.links k with up := (s.links k).up.drop count,took := count} with
        server := .writing k (filled ((s.links k).up.take count))}
  | ends (here : s.server = .reading k) (gone : (s.links k).client = .gone) :
      Stepped s (.read count) {s with server := .closing k}
  | answers (here : s.server = .writing k buf) :
      Stepped s .write {s.put k {s.links k with down := (s.links k).down ++ buf} with server := .closing k}
  | closes (here : s.server = .closing k) :
      Stepped s .close {s.put k {s.links k with closed := true} with server := .accepting}
  | receives (here : (s.links k).client = .reading) (takes : Takes count (s.links k).down) :
      Stepped s (.receive k count beyond) (s.put k {s.links k with
        client := .printed (shown (filled ((s.links k).down.take count)) beyond)
        down := (s.links k).down.drop count
        gave := count})
  | fails (here : (s.links k).client = .reading) (closed : (s.links k).closed = true)
      (lost : (s.links k).up ≠ [] ∨ (s.links k).down = []) :
      Stepped s (.fail k) (s.put k {s.links k with client := .failed})

theorem step_sound (ran : step s action = some next) : Stepped s action next := by
  cases action with
  | connect => cases ran; exact .connects
  | type k text =>
    obtain ⟨⟨inside,here⟩,rfl⟩ := Option.ite_none_right_eq_some.mp ran |>.imp_right Option.some.inj
    exact .types inside here
  | send k =>
    simp only [step] at ran
    split at ran
    · rename_i buf here; cases ran; exact .sends here
    · cases ran
  | leave k =>
    obtain ⟨⟨inside,here⟩,rfl⟩ := Option.ite_none_right_eq_some.mp ran |>.imp_right Option.some.inj
    exact .leaves inside here
  | accept succeeds =>
    simp only [step,Option.ite_none_right_eq_some] at ran
    obtain ⟨idle,ran⟩ := ran
    split at ran
    · rename_i succeeded
      obtain ⟨more,rfl⟩ := Option.ite_none_right_eq_some.mp ran |>.imp_right Option.some.inj
      rw [succeeded]
      exact .accepts idle more
    · rename_i failed
      cases ran
      rw [Bool.eq_false_iff.mpr failed]
      exact .refuses idle
  | read count =>
    simp only [step] at ran
    split at ran
    · rename_i k here
      split at ran
      · rename_i takes; cases ran; exact .takes here takes
      · obtain ⟨⟨_,gone⟩,rfl⟩ := Option.ite_none_right_eq_some.mp ran |>.imp_right Option.some.inj
        exact .ends here gone
    · cases ran
  | write =>
    simp only [step] at ran
    split at ran
    · rename_i k buf here; cases ran; exact .answers here
    · cases ran
  | close =>
    simp only [step] at ran
    split at ran
    · rename_i k here; cases ran; exact .closes here
    · cases ran
  | receive k count beyond =>
    obtain ⟨⟨here,takes⟩,rfl⟩ := Option.ite_none_right_eq_some.mp ran |>.imp_right Option.some.inj
    exact .receives here takes
  | fail k =>
    obtain ⟨⟨here,closed,lost⟩,rfl⟩ := Option.ite_none_right_eq_some.mp ran |>.imp_right Option.some.inj
    exact .fails here closed lost

-- How far the server is with a connection.
inductive Stage where
  | pending
  | held (buf : Bytes)
  | answered

def stage (s : State) (k : Nat) : Stage :=
  if s.accepted ≤ k then .pending
  else match s.server with
    | .reading i => if k = i then .pending else .answered
    | .writing i buf => if k = i then .held buf else .answered
    | .accepting | .closing _ => .answered

-- What the server's read has taken; the rest stays only where it came short.
def Link.Read (link : Link) : Prop := 0 < link.took ∧ (link.up ≠ [] → link.took < MAXBUF)

def Link.echo (link : Link) : Bytes := filled (link.typed.val.take link.took)

def Link.Fits (link : Link) : Stage → Prop
  | .pending => link.closed = false ∧ link.down = [] ∧ match link.client with
    | .typing => link.up = []
    | .writing buf => link.up = [] ∧ buf = filled link.typed.val
    | .reading => link.up = filled link.typed.val
    | .gone => True
    | _ => False
  | .held buf => link.closed = false ∧ link.down = [] ∧ match link.client with
    | .reading => link.Read ∧ buf = link.echo
    | .gone => True
    | _ => False
  | .answered => match link.client with
    | .reading => link.Read ∧ link.down = link.echo
    | .printed text => 0 < min link.took link.gave ∧
        ∃ beyond, text = shown (filled (link.typed.val.take (min link.took link.gave))) beyond
    | .failed => link.took < MAXBUF
    | .gone => True
    | _ => False

structure Sound (s : State) : Prop where
  accepted : s.accepted ≤ s.established
  current : match s.server with
    | .accepting => True
    | .reading k | .writing k _ | .closing k => s.accepted = k + 1
  links : ∀ k, (s.links k).Fits (stage s k)
  fresh : ∀ k, s.established ≤ k → (s.links k).client = .typing

theorem initial_sound : Sound initial := ⟨Nat.le_refl 0,trivial,fun _ => ⟨rfl,rfl,rfl⟩,fun _ _ => rfl⟩

theorem filled_length (text : Text) : (filled text.val).length = MAXLINE := by
  rw [filled,overlay_length,List.length_replicate]
  exact Nat.max_eq_right text.property

theorem filled_take (fits : text.length ≤ MAXLINE) (n : Nat) : filled ((filled text).take n) = filled (text.take n) := by
  have zeros : filled text = text ++ List.replicate (MAXLINE - text.length) 0 := by
    rw [filled,overlay,List.drop_replicate]
    rfl
  rw [zeros,List.take_append,List.take_replicate]
  simp only [filled,overlay,List.drop_replicate,List.length_append,List.length_take,List.length_replicate,
    List.append_assoc,List.replicate_append_replicate]
  congr 2
  have limit : UdomainServer.MAXLINE = MAXLINE := rfl
  omega

variable {link : Link}

theorem inside_of (sound : Sound s) (moved : (s.links k).client ≠ .typing) : k < s.established := by
  by_contra outside
  exact moved (sound.fresh k (Nat.le_of_not_lt outside))

theorem put_sound (sound : Sound s) (inside : k < s.established) (fits : link.Fits (stage s k)) : Sound (s.put k link) := by
  refine ⟨sound.accepted,sound.current,fun i => ?_,fun i outside => ?_⟩
  · show (Function.update s.links k link i).Fits (stage s i)
    by_cases same : i = k
    · subst same
      rwa [Function.update_self]
    · rw [Function.update_of_ne same]
      exact sound.links i
  · have other : i ≠ k := Nat.ne_of_gt (Nat.lt_of_lt_of_le inside outside)
    show (Function.update s.links k link i).client = .typing
    rw [Function.update_of_ne other]
    exact sound.fresh i outside

theorem served_sound (bound : next.accepted ≤ next.established)
    (current : match next.server with
      | .accepting => True
      | .reading k | .writing k _ | .closing k => next.accepted = k + 1)
    (sound : Sound s) (same : next.established = s.established) (clients : ∀ i, (next.links i).client = (s.links i).client)
    (others : ∀ i, i ≠ k → next.links i = s.links i ∧ stage next i = stage s i)
    (fits : (next.links k).Fits (stage next k)) : Sound next := by
  refine ⟨bound,current,fun i => ?_,fun i outside => ?_⟩
  · by_cases same : i = k
    · subst same
      exact fits
    · obtain ⟨links,stages⟩ := others i same
      rw [links,stages]
      exact sound.links i
  · rw [clients]
    exact sound.fresh i (same ▸ outside)

theorem client_put {s : State} (same : link.client = (s.links k).client) (i : Nat) : ((s.put k link).links i).client = (s.links i).client := by
  show (Function.update s.links k link i).client = _
  by_cases equal : i = k
  · subst equal
    rw [Function.update_self,same]
  · rw [Function.update_of_ne equal]

theorem echo_take (link : Link) (count : Nat) :
    filled (link.echo.take count) = filled (link.typed.val.take (min link.took count)) := by
  have fits : (link.typed.val.take link.took).length ≤ MAXLINE :=
    Nat.le_trans (List.length_take_le' _ _) link.typed.property
  rw [Link.echo,filled_take fits,List.take_take,Nat.min_comm]

theorem echo_nonempty (link : Link) : link.echo ≠ [] := by
  intro nothing
  have length := congrArg List.length nothing
  rw [Link.echo,filled,overlay_length,List.length_replicate,List.length_nil] at length
  have limit : UdomainServer.MAXLINE = 1024 := rfl
  omega

-- One lemma for each thing that happens to a connection.
theorem typed_fits (fits : link.Fits place) (here : link.client = .typing) (text : Text) :
    Link.Fits {link with client := .writing (filled text.val),typed := text} place := by
  cases place <;> simp_all [Link.Fits]

theorem sent_fits (fits : link.Fits place) (here : link.client = .writing buf) :
    Link.Fits {link with client := .reading,up := link.up ++ buf} place := by
  cases place <;> simp_all [Link.Fits]

theorem left_fits (fits : link.Fits place) : Link.Fits {link with client := .gone} place := by
  cases place <;> simp_all [Link.Fits]

theorem received_fits (fits : link.Fits place) (here : link.client = .reading) (takes : Takes count link.down) (beyond : Beyond) :
    Link.Fits {link with
      client := .printed (shown (filled (link.down.take count)) beyond)
      down := link.down.drop count
      gave := count} place := by
  obtain ⟨some_,_,inside⟩ := takes
  cases place with
  | answered =>
    simp only [Link.Fits,here] at fits
    obtain ⟨⟨took,_⟩,down⟩ := fits
    refine ⟨Nat.lt_min.mpr ⟨took,some_⟩,beyond,?_⟩
    rw [down,echo_take]
  | pending | held =>
    rw [fits.2.1] at inside
    exact absurd inside (Nat.not_le_of_lt some_)

theorem failed_fits (fits : link.Fits place) (here : link.client = .reading) (closed : link.closed = true)
    (lost : link.up ≠ [] ∨ link.down = []) : Link.Fits {link with client := .failed} place := by
  cases place with
  | answered =>
    simp only [Link.Fits,here] at fits
    obtain ⟨⟨_,short⟩,down⟩ := fits
    rcases lost with unread | nothing
    · exact short unread
    · exact absurd (down.symm.trans nothing) (echo_nonempty _)
  | pending | held => cases closed.symm.trans fits.1

theorem taken_fits (fits : link.Fits .pending) (takes : Takes count link.up) :
    Link.Fits {link with up := link.up.drop count,took := count} (.held (filled (link.up.take count))) := by
  obtain ⟨opened,nothing,sent⟩ := fits
  obtain ⟨some_,_,inside⟩ := takes
  refine ⟨opened,nothing,?_⟩
  cases here : link.client with
  | reading =>
    rw [here] at sent
    have sent : link.up = filled link.typed.val := sent
    refine ⟨⟨some_,fun left => ?_⟩,?_⟩
    · have length := List.length_pos_iff.mpr left
      rw [List.length_drop,sent,filled_length] at length
      exact Nat.lt_of_sub_pos length
    · rw [sent]
      exact filled_take link.typed.property count
  | gone => trivial
  | typing | writing =>
    have empty : link.up = [] := by simp_all
    rw [empty] at inside
    exact absurd inside (Nat.not_le_of_lt some_)
  | printed | failed =>
    rw [here] at sent
    exact sent.elim

theorem answered_fits (fits : link.Fits (.held buf)) : Link.Fits {link with down := link.down ++ buf} .answered := by
  obtain ⟨_,nothing,held⟩ := fits
  cases here : link.client <;> simp_all [Link.Fits,Link.Read,Link.echo]

theorem closed_fits (fits : link.Fits .answered) : Link.Fits {link with closed := true} .answered := fits

theorem sound_preserved (sound : Sound s) (stepped : Stepped s action next) : Sound next := by
  have current := sound.current
  cases stepped with
  | types inside here => exact put_sound sound inside (typed_fits (sound.links _) here _)
  | sends here => exact put_sound sound (inside_of sound (by simp [here])) (sent_fits (sound.links _) here)
  | leaves inside here => exact put_sound sound inside (left_fits (sound.links _))
  | receives here takes => exact put_sound sound (inside_of sound (by simp [here])) (received_fits (sound.links _) here takes _)
  | fails here closed lost => exact put_sound sound (inside_of sound (by simp [here])) (failed_fits (sound.links _) here closed lost)
  | connects => exact ⟨Nat.le_succ_of_le sound.accepted,sound.current,sound.links,fun k outside => sound.fresh k (Nat.le_of_succ_le outside)⟩
  | refuses idle => exact sound
  | accepts idle more =>
    have fits := sound.links s.accepted
    have before : stage s s.accepted = .pending := if_pos (Nat.le_refl _)
    rw [before] at fits
    refine served_sound (k := s.accepted) more rfl sound rfl (fun _ => rfl) ?_ ?_
    · intro i other
      have after : s.accepted + 1 ≤ i ↔ s.accepted ≤ i := by omega
      exact ⟨rfl,by simp [stage,idle,after,other]⟩
    · simpa [stage] using fits
  | takes here takes =>
    rename_i k count
    rw [here] at current
    have fits := sound.links k
    have before : stage s k = .pending := by simp [stage,here]
    rw [before] at fits
    refine served_sound (k := k) sound.accepted current sound rfl (client_put rfl) ?_ ?_
    · exact fun i other => ⟨Function.update_of_ne other _ _,by simp [stage,State.put,here,other]⟩
    · have after := taken_fits fits takes
      simpa [stage,State.put,current] using after
  | ends here gone =>
    rename_i k count
    rw [here] at current
    refine served_sound (k := k) sound.accepted current sound rfl (fun _ => rfl) ?_ ?_
    · exact fun i other => ⟨rfl,by simp [stage,here,other]⟩
    · simp [stage,current,Link.Fits,gone]
  | answers here =>
    rename_i k buf
    rw [here] at current
    have fits := sound.links k
    have before : stage s k = .held buf := by simp [stage,here,current]
    rw [before] at fits
    refine served_sound (k := k) sound.accepted current sound rfl (client_put rfl) ?_ ?_
    · exact fun i other => ⟨Function.update_of_ne other _ _,by simp [stage,State.put,here,other]⟩
    · have after := answered_fits fits
      simpa [stage,State.put,current] using after
  | closes here =>
    rename_i k
    rw [here] at current
    have fits := sound.links k
    have before : stage s k = .answered := by simp [stage,here,current]
    rw [before] at fits
    refine served_sound (k := k) sound.accepted trivial sound rfl (client_put rfl) ?_ ?_
    · exact fun i other => ⟨Function.update_of_ne other _ _,by simp [stage,State.put,here]⟩
    · have after := closed_fits fits
      simpa [stage,State.put,current] using after

theorem run_sound (ran : run step initial actions = some s) : Sound s :=
  run_invariant (fun _ _ _ sound ran => sound_preserved sound (step_sound ran)) initial_sound ran

theorem untilNul_take (bytes : Bytes) (n : Nat) : untilNul (bytes.take n) = (untilNul bytes).take n := List.take_takeWhile.symm

-- The text of a cleared buffer goes on behind it only where it is full of bytes
-- other than NUL.
theorem shown_filled (fits : chunk.length ≤ MAXLINE) (beyond : Beyond) :
    shown (filled chunk) beyond = if chunk.length < MAXLINE ∨ 0 ∈ chunk then untilNul chunk else chunk ++ beyond.val := by
  have ends : (ChatSockets.received chunk).isSome ↔ chunk.length < MAXLINE ∨ 0 ∈ chunk := ChatSockets.received_isSome chunk
  split
  · rename_i ended
    obtain ⟨msg,found⟩ := Option.isSome_iff_exists.mp (ends.mpr ended)
    have text : shown (filled chunk) beyond = msg := by
      show (ChatSockets.received chunk).getD _ = msg
      rw [found,Option.getD_some]
    rw [text]
    exact ChatSockets.received_untilNul found
  · rename_i endless
    have none_ : ChatSockets.received chunk = none := by
      rw [← Option.not_isSome_iff_eq_none,ends]
      exact endless
    have full : chunk.length = MAXLINE := by omega
    show (ChatSockets.received chunk).getD (filled chunk ++ beyond.val) = _
    rw [none_,Option.getD_none,filled,overlay_whole]
    rw [List.length_replicate,full]
    exact Nat.le_refl _

-- How far the shorter of the two reads of a text came, and whether what was read
-- of it has an end in the buffer.
def Link.reach (link : Link) : Nat := min link.took link.gave

def Link.Ended (link : Link) : Prop := link.reach < MAXLINE ∨ link.typed.val.length < MAXLINE ∨ 0 ∈ link.typed.val

instance (link : Link) : Decidable link.Ended := inferInstanceAs (Decidable (_ ∨ _ ∨ _))

theorem part_ended (link : Link) :
    (link.typed.val.take link.reach).length < MAXLINE ∨ 0 ∈ link.typed.val.take link.reach ↔ link.Ended := by
  have fits := link.typed.property
  rw [List.length_take,Link.Ended]
  by_cases short : link.reach < MAXLINE ∨ link.typed.val.length < MAXLINE
  · exact iff_of_true (.inl (by omega)) (by omega)
  · rw [List.take_of_length_le (by omega)]
    exact ⟨fun ended => .inr (.inr (ended.resolve_left (by omega))),fun ended => .inr (by tauto)⟩

theorem printed_ended {beyond : Beyond} (ended : link.Ended)
    (printed : text = shown (filled (link.typed.val.take link.reach)) beyond) :
    text = (untilNul link.typed.val).take link.reach ∧
      (text = untilNul link.typed.val ↔ (untilNul link.typed.val).length ≤ link.reach) := by
  have part : (link.typed.val.take link.reach).length ≤ MAXLINE := Nat.le_trans (List.length_take_le' _ _) link.typed.property
  have read : text = (untilNul link.typed.val).take link.reach := by
    rw [printed,shown_filled part,if_pos ((part_ended link).mpr ended),untilNul_take]
  refine ⟨read,?_⟩
  rw [read]
  exact List.take_eq_self_iff _

theorem printed_endless {beyond : Beyond} (endless : ¬ link.Ended)
    (printed : text = shown (filled (link.typed.val.take link.reach)) beyond) : text = link.typed.val ++ beyond.val := by
  have fits := link.typed.property
  have part : (link.typed.val.take link.reach).length ≤ MAXLINE := Nat.le_trans (List.length_take_le' _ _) fits
  have whole : link.typed.val.length ≤ link.reach := by
    simp only [Link.Ended] at endless
    omega
  rw [printed,shown_filled part,if_neg (mt (part_ended link).mp endless),List.take_of_length_le whole]

-- Whatever the others do, a client prints its own text as far as the two reads
-- came, and it fails only where the server's read came short.
theorem echo_own (ran : run step initial actions = some s) (k : Nat) :
    (∀ text, (s.links k).client = .printed text → 0 < (s.links k).reach ∧
      ((s.links k).Ended → text = (untilNul (s.links k).typed.val).take (s.links k).reach ∧
        (text = untilNul (s.links k).typed.val ↔ (untilNul (s.links k).typed.val).length ≤ (s.links k).reach)) ∧
      (¬ (s.links k).Ended → ∃ beyond : Beyond, text = (s.links k).typed.val ++ beyond.val)) ∧
    ((s.links k).client = .failed → (s.links k).took < MAXBUF) := by
  have fits := (run_sound ran).links k
  cases place : stage s k with
  | pending | held =>
    rw [place] at fits
    constructor
    · intro text printed
      simp [Link.Fits,printed] at fits
    · intro failed
      simp [Link.Fits,failed] at fits
  | answered =>
    rw [place] at fits
    constructor
    · intro text printed
      simp only [Link.Fits,printed] at fits
      obtain ⟨some_,beyond,shows_⟩ := fits
      exact ⟨some_,fun ended => printed_ended ended shows_,fun endless => ⟨beyond,printed_endless endless shows_⟩⟩
    · intro failed
      simpa only [Link.Fits,failed] using fits

def oneByte : List Action :=
  [.connect,.type 0 ⟨ascii "hi\n",by decide⟩,.send 0,.accept true,.read 1,.write,.close,.receive 0 2 ⟨[7],by decide⟩]

theorem echo_own_byte : ∃ s, run step initial oneByte = some s ∧ (s.links 0).client = .printed (ascii "h") ∧
    ascii "h" = (untilNul (s.links 0).typed.val).take (s.links 0).reach ∧ ascii "h" ≠ untilNul (s.links 0).typed.val := by
  have ends : (run step initial oneByte).map (fun s => ((s.links 0).client,(s.links 0).reach,(s.links 0).typed.val)) =
      some (.printed (ascii "h"),1,ascii "hi\n") := by decide +kernel
  obtain ⟨s,ran,seen⟩ := Option.map_eq_some_iff.mp ends
  obtain ⟨printed,more⟩ := Prod.mk.inj seen
  obtain ⟨reach,typed⟩ := Prod.mk.inj more
  have short : (s.links 0).Ended := .inl (by rw [reach]; decide)
  obtain ⟨text,whole⟩ := ((echo_own ran 0).1 _ printed).2.1 short
  refine ⟨s,ran,printed,text,fun same => ?_⟩
  have reached := whole.mp same
  rw [reach,typed] at reached
  exact absurd reached (by decide)

-- Steps of the programs alone: nobody connects, types or is killed, and accept
-- answers with a connection.
def Own : Action → Prop
  | .connect | .type _ _ | .leave _ | .accept false => False
  | _ => True

def Stuck (s : State) : Prop := ∀ action, Own action → step s action = none

def Pending (s : State) (k : Nat) : Prop := k < s.established ∧ (s.accepted ≤ k ∨ s.server = .reading k)

def Client.finished : Client → Bool
  | .printed _ | .failed => true
  | _ => false

def Client.left : Client → Nat
  | .writing _ => 2
  | .reading => 1
  | _ => 0

def Server.left : Server → Nat
  | .accepting => 0
  | .closing _ => 1
  | .writing _ _ => 2
  | .reading _ => 3

def left (s : State) : Nat :=
  4 * (s.established - s.accepted) + s.server.left + ∑ k ∈ Finset.range s.established, (s.links k).client.left

theorem left_put (inside : k < s.established) (less : link.client.left < (s.links k).client.left) : left (s.put k link) < left s := by
  refine Nat.add_lt_add_left (Finset.sum_lt_sum ?_ ⟨k,Finset.mem_range.mpr inside,by simpa [State.put] using less⟩) _
  intro i _
  by_cases same : i = k
  · subst same
    simpa [State.put] using Nat.le_of_lt less
  · simp [State.put,same]

theorem left_served (same : next.established = s.established) (clients : ∀ i, (next.links i).client = (s.links i).client)
    (less : 4 * (next.established - next.accepted) + next.server.left < 4 * (s.established - s.accepted) + s.server.left) :
    left next < left s := by
  unfold left
  rw [same] at less ⊢
  rw [Finset.sum_congr rfl fun i _ => congrArg Client.left (clients i)]
  exact Nat.add_lt_add_right less _

theorem left_drops (sound : Sound s) (own : Own action) (stepped : Stepped s action next) : left next < left s := by
  cases stepped with
  | connects | types | leaves | refuses => exact own.elim
  | sends here | receives here | fails here => exact left_put (inside_of sound (by simp [here])) (by simp [here,Client.left])
  | accepts idle more =>
    refine left_served rfl (fun _ => rfl) ?_
    simp only [idle,Server.left]
    omega
  | takes here | answers here | closes here =>
    exact left_served rfl (client_put rfl) (by simp [here,Server.left,State.put])
  | ends here => exact left_served rfl (fun _ => rfl) (by simp [here,Server.left])

theorem pending_iff (s : State) (k : Nat) : stage s k = .pending ↔ s.accepted ≤ k ∨ s.server = .reading k := by
  unfold stage
  by_cases later : s.accepted ≤ k
  · simp [later]
  · cases s.server <;> simp [later,eq_comm]
    split <;> simp_all

theorem held_writing (far : stage s k = .held buf) : s.server = .writing k buf := by
  unfold stage at far
  split at far
  · cases far
  · cases here : s.server <;> simp only [here] at far <;> try split at far
    all_goals simp_all

theorem reading_inside (sound : Sound s) (here : s.server = .reading k) : s.accepted = k + 1 ∧ k < s.established := by
  have current := sound.current
  rw [here] at current
  have current : s.accepted = k + 1 := current
  exact ⟨current,Nat.lt_of_succ_le (current ▸ sound.accepted : k + 1 ≤ s.established)⟩

theorem pending_pending (sound : Sound s) (pending : Pending s k) : (s.links k).Fits .pending := by
  have fits := sound.links k
  rwa [(pending_iff s k).mpr pending.2] at fits

theorem pending_behind (sound : Sound s) (pending : Pending s k) (behind : k ≤ j) (inside : j < s.established) : Pending s j := by
  refine ⟨inside,?_⟩
  rcases pending.2 with later | here
  · exact .inl (Nat.le_trans later behind)
  · rcases Nat.eq_or_lt_of_le behind with same | after
    · rw [← same]
      exact .inr here
    · exact .inl ((reading_inside sound here).1 ▸ after)

structure Onward (s next : State) : Prop where
  established : next.established = s.established
  pending : ∀ k, Pending next k → Pending s k
  typing : ∀ k, (next.links k).client = .typing ↔ (s.links k).client = .typing
  gone : ∀ k, (next.links k).client = .gone ↔ (s.links k).client = .gone

theorem onward_refl (s : State) : Onward s s := ⟨rfl,fun _ pending => pending,fun _ => Iff.rfl,fun _ => Iff.rfl⟩

theorem onward_trans (first : Onward s middle) (second : Onward middle next) : Onward s next :=
  ⟨second.established.trans first.established,fun k pending => first.pending k (second.pending k pending),
    fun k => (second.typing k).trans (first.typing k),fun k => (second.gone k).trans (first.gone k)⟩

theorem onward_put (before : (s.links i).client ≠ .typing) (there : (s.links i).client ≠ .gone)
    (typing : link.client ≠ .typing) (gone : link.client ≠ .gone) : Onward s (s.put i link) := by
  have others : ∀ k, k ≠ i → (s.put i link).links k = s.links k := fun k other => Function.update_of_ne other _ _
  have own : (s.put i link).links i = link := Function.update_self _ _ _
  refine ⟨rfl,fun _ pending => pending,fun k => ?_,fun k => ?_⟩
  · by_cases same : k = i
    · rw [same,own]
      exact iff_of_false typing before
    · rw [others k same]
  · by_cases same : k = i
    · rw [same,own]
      exact iff_of_false gone there
    · rw [others k same]

-- The server changes no client, and has fewer connections before it.
theorem onward_served (same : next.established = s.established) (clients : ∀ k, (next.links k).client = (s.links k).client)
    (pending : ∀ k, next.accepted ≤ k ∨ next.server = .reading k → s.accepted ≤ k ∨ s.server = .reading k) : Onward s next := by
  refine ⟨same,fun k waits => ⟨same ▸ waits.1,pending k waits.2⟩,fun k => ?_,fun k => ?_⟩ <;> rw [clients]

theorem own_onward (own : Own action) (stepped : Stepped s action next) : Onward s next := by
  cases stepped with
  | connects | types | leaves | refuses => exact own.elim
  | sends here | receives here | fails here => apply onward_put <;> simp [here]
  | accepts idle more =>
    refine onward_served rfl (fun _ => rfl) fun k waits => .inl ?_
    rcases waits with later | here
    · exact Nat.le_of_succ_le later
    · exact Nat.le_of_eq (Server.reading.inj here)
  | takes here | answers here | closes here =>
    exact onward_served rfl (client_put rfl) fun k waits => .inl (waits.resolve_right (by simp))
  | ends here gone => exact onward_served rfl (fun _ => rfl) fun k waits => .inl (waits.resolve_right (by simp))

theorem run_onward (own : ∀ action ∈ actions, Own action) (ran : run step s actions = some t) : Onward s t :=
  run_allowed (fun _ _ _ onward mine ran => onward_trans onward (own_onward mine (step_sound ran))) (onward_refl s) own ran

-- A client at its prompt holds up the server, and so all that connected after it.
def Blocked (k : Nat) (s : State) : Prop := Sound s ∧ Pending s k ∧ (s.links k).client = .typing

theorem blocked_kept (blocked : Blocked k s) (own : Own action) (stepped : Stepped s action next) : Blocked k next := by
  obtain ⟨sound,pending,typing⟩ := blocked
  have later := sound_preserved sound stepped
  have onward := own_onward own stepped
  refine ⟨later,⟨onward.established ▸ pending.1,?_⟩,(onward.typing k).mpr typing⟩
  have fits := (pending_pending sound pending).2.2
  rw [typing] at fits
  have nothing : (s.links k).up = [] := fits
  cases stepped with
  | connects | types | leaves | refuses => exact own.elim
  | sends here | receives here | fails here => exact pending.2
  | accepts idle more =>
    have waits : s.accepted ≤ k := pending.2.resolve_right (by simp [idle])
    rcases Nat.eq_or_lt_of_le waits with next | after
    · rw [next]
      exact .inr rfl
    · exact .inl after
  | takes here takes =>
    rename_i i count
    refine .inl (pending.2.resolve_right ?_)
    intro there
    cases here.symm.trans there
    obtain ⟨some_,_,inside⟩ := takes
    rw [nothing] at inside
    exact absurd inside (Nat.not_le_of_lt some_)
  | ends here gone =>
    rename_i i count
    refine .inl (pending.2.resolve_right ?_)
    intro there
    cases here.symm.trans there
    cases typing.symm.trans gone
  | answers here | closes here => exact .inl (pending.2.resolve_right (by simp [here]))

theorem blocked_behind (blocked : Blocked k s) (behind : k ≤ j) (inside : j < s.established) : (s.links j).client.finished = false := by
  obtain ⟨sound,pending,_⟩ := blocked
  have fits := (pending_pending sound (pending_behind sound pending behind inside)).2.2
  cases place : (s.links j).client <;> simp_all [Client.finished]

-- Where the programs cannot go on, the server waits for another connection, or
-- for a client at its prompt.
theorem stuck_server (sound : Sound s) (stuck : Stuck s) :
    (s.server = .accepting ∧ s.accepted = s.established) ∨ ∃ k, s.server = .reading k ∧ (s.links k).client = .typing := by
  cases here : s.server with
  | accepting =>
    have halted : step s (.accept true) = none := stuck _ trivial
    have none_ : ¬ s.accepted < s.established := by simpa [step,here] using halted
    exact .inl ⟨rfl,Nat.le_antisymm sound.accepted (Nat.le_of_not_lt none_)⟩
  | reading k =>
    have halted : step s (.read 1) = none := stuck _ trivial
    have sends : step s (.send k) = none := stuck _ trivial
    have fits := (pending_pending sound ⟨(reading_inside sound here).2,.inr here⟩).2.2
    simp only [step,here] at halted
    split at halted
    · cases halted
    · rename_i idle
      have nothing : (s.links k).up = [] := by
        by_contra some_
        exact idle ⟨by decide,by decide,List.length_pos_iff.mpr some_⟩
      cases place : (s.links k).client with
      | typing => exact .inr ⟨k,rfl,place⟩
      | writing buf => simp [step,place] at sends
      | reading =>
        rw [place] at fits
        have sent := filled_length (s.links k).typed
        rw [← (fits : (s.links k).up = _),nothing] at sent
        cases sent
      | gone => simp [nothing,place] at halted
      | printed | failed =>
        rw [place] at fits
        exact fits.elim
  | writing k buf =>
    have halted : step s .write = none := stuck _ trivial
    simp [step,here] at halted
  | closing k =>
    have halted : step s .close = none := stuck _ trivial
    simp [step,here] at halted

-- There a client has ended, or somebody up to it is at the prompt.
theorem stuck_finished (sound : Sound s) (stuck : Stuck s) (inside : j < s.established) (stays : (s.links j).client ≠ .gone) :
    (s.links j).client.finished = true ∨ ∃ k ≤ j, Pending s k ∧ (s.links k).client = .typing := by
  have fits := sound.links j
  have sends : step s (.send j) = none := stuck _ trivial
  have receives : step s (.receive j 1 ⟨[],List.not_mem_nil⟩) = none := stuck _ trivial
  cases place : (s.links j).client with
  | printed | failed => exact .inl rfl
  | gone => exact absurd place stays
  | writing buf => simp [step,place] at sends
  | typing =>
    refine .inr ⟨j,Nat.le_refl j,⟨inside,(pending_iff s j).mp ?_⟩,place⟩
    cases far : stage s j with
    | pending => rfl
    | held | answered => simp [far,Link.Fits,place] at fits
  | reading =>
    have halted : ¬ Takes 1 (s.links j).down := by simpa [step,place] using receives
    cases far : stage s j with
    | answered =>
      simp only [far,Link.Fits,place] at fits
      refine absurd ⟨by decide,by decide,?_⟩ halted
      rw [fits.2]
      exact List.length_pos_iff.mpr (echo_nonempty _)
    | held buf =>
      have writes : step s .write = none := stuck _ trivial
      simp [step,held_writing far] at writes
    | pending =>
      have waits := (pending_iff s j).mp far
      rcases stuck_server sound stuck with ⟨idle,all⟩ | ⟨k,here,typing⟩
      · rcases waits with later | there
        · omega
        · cases idle.symm.trans there
      · obtain ⟨current,below⟩ := reading_inside sound here
        refine .inr ⟨k,?_,⟨below,.inr here⟩,typing⟩
        rcases waits with later | there
        · omega
        · cases here.symm.trans there
          exact Nat.le_refl _

-- However the programs go on, they come to rest, and there a client has its reply
-- or has failed exactly where nobody that connected up to it, and that the server
-- has yet to read from, is at the prompt.
theorem queue_served (ran : run step initial actions = some s) (inside : j < s.established) (stays : (s.links j).client ≠ .gone) :
    (∃ more t, (∀ action ∈ more, Own action) ∧ run step s more = some t ∧ Stuck t) ∧
    ∀ more t, (∀ action ∈ more, Own action) → run step s more = some t → more.length ≤ left s ∧
      (Stuck t → ((t.links j).client.finished = true ↔ ∀ k ≤ j, Pending s k → (s.links k).client ≠ .typing)) := by
  have sound := run_sound ran
  have keeps : ∀ s action next, Sound s → Own action → step s action = some next → Sound next :=
    fun _ _ _ sound _ ran => sound_preserved sound (step_sound ran)
  have drops : ∀ s action next, Sound s → Own action → step s action = some next → left next < left s :=
    fun _ _ _ sound own ran => left_drops sound own (step_sound ran)
  refine ⟨run_settles keeps drops sound,fun more t own onward => ⟨?_,fun stuck => ?_⟩⟩
  · have bound := run_bounded keeps drops sound own onward
    omega
  have kept := run_onward own onward
  have below : j < t.established := kept.established ▸ inside
  constructor
  · intro finished k upto waits typing
    have blocked : Blocked k t :=
      run_allowed (fun _ _ _ blocked mine ran => blocked_kept blocked mine (step_sound ran)) ⟨sound,waits,typing⟩ own onward
    have unserved := blocked_behind blocked upto below
    rw [finished] at unserved
    cases unserved
  · intro none_
    have later : Sound t := run_allowed (fun _ _ _ sound mine ran => sound_preserved sound (step_sound ran)) sound own onward
    rcases stuck_finished later stuck below (fun gone => stays ((kept.gone j).mp gone)) with finished | ⟨k,upto,waits,typing⟩
    · exact finished
    · exact absurd ((kept.typing k).mp typing) (none_ k upto (kept.pending k waits))

def behindPrompt : List Action := [.connect,.connect,.type 1 ⟨ascii "you",by decide⟩,.send 1]

theorem queue_served_behind : ∃ s, run step initial behindPrompt = some s ∧
    ∀ more t, (∀ action ∈ more, Own action) → run step s more = some t → Stuck t → (t.links 1).client.finished = false := by
  have ends : (run step initial behindPrompt).map (fun s => (s.established,s.accepted,(s.links 0).client,(s.links 1).client)) =
      some (2,0,.typing,.reading) := by decide +kernel
  obtain ⟨s,ran,seen⟩ := Option.map_eq_some_iff.mp ends
  obtain ⟨established,rest⟩ := Prod.mk.inj seen
  obtain ⟨accepted,clients⟩ := Prod.mk.inj rest
  obtain ⟨first,second⟩ := Prod.mk.inj clients
  refine ⟨s,ran,fun more t own onward stuck => Bool.eq_false_iff.mpr fun finished => ?_⟩
  have served := (queue_served ran (j := 1) (by rw [established]; decide) (by rw [second]; decide)).2 more t own onward
  exact (served.2 stuck).mp finished 0 (by decide) ⟨by rw [established]; decide,.inl (by rw [accepted])⟩ first

end NetworkEx.OneShotEcho
