import NetworkEx.CalculatorInput
import NetworkEx.UdpMatching

namespace NetworkEx.UdpSession
open ByteStreams CText TransitionRuns UdpCalculator UdpCorrectness
open ScanFormat (Numeral)
open CalculatorInput (MAXLEN Plain turn text)

abbrev Typed := Piece (MAXLEN - 2)

-- The client from its keyboard to its screen, with the network and the server:
-- `line` is what the last fgets brought, none at the end of the input, and each
-- text on the screen stands behind the line it was printed for.
structure State where
  input : CalculatorInput.State
  line : Option Typed
  ended : Bool
  net : UdpMatching.State
  screen : List (Option Typed × Bytes)

def initial (input : CalculatorInput.State) (sdata : Region) (server : UdpCalculator.State) : State :=
  ⟨input,none,false,UdpMatching.initial sdata server,[]⟩

inductive Action where
  | type (line : Option Typed)
  | serve (k : Nat)
  | other (datagram : Datagram)
  | deliver (k : Nat)

-- printf("%d %c %d = %d\n",..)
def sentence (line : UdpMatching.Line) : Bytes :=
  decimal line.leftNum.toInt ++ 32 :: line.op :: 32 :: (decimal line.rightNum.toInt ++ 32 ::
    (ascii "= " ++ (decimal line.result.toInt ++ [10])))

-- The loop waits in recvfrom after each sendto. A turn whose sscanf runs out of
-- op[2] has no next state.
def step (s : State) : Action → Option State
  | .type line =>
    if s.ended = false ∧ s.net.asked = none then
      match turn s.input line with
      | .undefined => none
      | .quits => some {s with ended := true}
      | .asks q next => (UdpMatching.step s.net (.ask q)).map fun net => {s with input := next,line := line,net := net}
    else none
  | .serve k => (UdpMatching.step s.net (.serve k)).map fun net => {s with net := net}
  | .other datagram => (UdpMatching.step s.net (.other datagram)).map fun net => {s with net := net}
  | .deliver k => (UdpMatching.step s.net (.deliver k)).map fun net =>
      {s with net := net,screen := s.screen ++ [(s.line,sentence (UdpMatching.printed net.sdata))]}

def Asks (line : Option Typed) (q : Question) : Prop :=
  ∃ typed left op right tail, line = some typed ∧ Plain (text typed) left op right tail ∧ q = ⟨left.value,op,right.value⟩

def Tells (line : Option Typed) (shown : Bytes) : Prop :=
  ∃ q, Asks line q ∧ ∃ out, UdpMatching.Shows q out ∧ shown = sentence out

def Faithful (s : State) : Prop := ∀ line shown, (line,shown) ∈ s.screen → Tells line shown

-- The reply that comes is to the question that the line just typed has put.
def Told (s : State) : Action → Prop
  | .deliver k => ∀ known held, s.net.replies[k]? = some (known,held) → Asks s.line known
  | _ => True

-- What waits for its reply is what the line's turn has sent.
structure Valid (s : State) : Prop where
  answered : UdpMatching.Answered s.net
  sent : ∀ q, s.net.asked = some q → ∃ before, (turn before s.line).request = some (some q)

theorem split_unique {a : UInt8} {x y z w : Bytes} (left : a ∉ x) (right : a ∉ y) (same : x ++ a :: z = y ++ a :: w) :
    x = y ∧ z = w := by
  induction x generalizing y with
  | nil =>
    cases y with
    | nil => exact ⟨rfl,(List.cons.inj same).2⟩
    | cons b rest =>
      have first := (List.cons.inj same).1
      exact absurd (first ▸ List.mem_cons_self) right
  | cons b rest ih =>
    cases y with
    | nil =>
      have first := (List.cons.inj same).1
      exact absurd (first ▸ List.mem_cons_self) left
    | cons c more =>
      obtain ⟨first,later⟩ := List.cons.inj same
      obtain ⟨fronts,backs⟩ := ih (fun member => left (List.mem_cons_of_mem _ member))
        (fun member => right (List.mem_cons_of_mem _ member)) later
      exact ⟨by rw [first,fronts],backs⟩

theorem decimal_inj {a b : BitVec 32} (same : decimal a.toInt = decimal b.toInt) : a = b := by
  have read := congrArg readInt same
  rw [readInt_decimal,readInt_decimal] at read
  exact BitVec.eq_of_toInt_eq (Option.some.inj read)

theorem sentence_inj (same : sentence line = sentence other) : line = other := by
  have free : ∀ n, (32 : UInt8) ∉ decimal n := decimal_free (by decide) (by decide)
  obtain ⟨left,same⟩ := split_unique (free _) (free _) same
  obtain ⟨op,same⟩ := List.cons.inj same
  obtain ⟨_,same⟩ := List.cons.inj same
  obtain ⟨right,same⟩ := split_unique (free _) (free _) same
  have result := List.append_cancel_right (List.append_cancel_left same)
  cases line
  cases other
  simp only at left op right result
  rw [decimal_inj left,op,decimal_inj right,decimal_inj result]

theorem type_parts (ran : step s (.type line) = some next) :
    (next = {s with ended := true} ∧ s.net.asked = none) ∨ ∃ q after net, turn s.input line = .asks q after ∧
      UdpMatching.step s.net (.ask q) = some net ∧ next = {s with input := after,line := line,net := net} := by
  simp only [step,Option.ite_none_right_eq_some] at ran
  obtain ⟨⟨_,idle⟩,ran⟩ := ran
  split at ran
  · cases ran
  · cases ran
    exact .inl ⟨rfl,idle⟩
  · rename_i q after asks
    obtain ⟨net,sent,rfl⟩ := Option.map_eq_some_iff.mp ran
    exact .inr ⟨q,after,net,asks,sent,rfl⟩

theorem initial_valid (input : CalculatorInput.State) (sdata : Region) (server : UdpCalculator.State) :
    Valid (initial input sdata server) := ⟨UdpMatching.initial_answered sdata server,nofun⟩

theorem serve_asked (ran : UdpMatching.step net (.serve k) = some after) : after.asked = net.asked := by
  rcases UdpMatching.serve_parts ran with rfl | ⟨_,_,_,_,_,rfl⟩ <;> rfl

theorem other_asked (ran : UdpMatching.step net (.other datagram) = some after) : after.asked = net.asked := by
  obtain ⟨_,rfl⟩ := UdpMatching.other_parts ran
  rfl

theorem valid_preserved (valid : Valid s) (ran : step s action = some next) : Valid next := by
  cases action with
  | type line =>
    rcases type_parts ran with ⟨rfl,_⟩ | ⟨q,after,net,asks,sent,rfl⟩
    · exact ⟨valid.answered,valid.sent⟩
    · refine ⟨UdpMatching.answered_preserved valid.answered sent,?_⟩
      rw [UdpMatching.ask_parts sent]
      rintro _ ⟨⟩
      exact ⟨s.input,by rw [asks]; rfl⟩
  | serve k =>
    obtain ⟨net,served,rfl⟩ := Option.map_eq_some_iff.mp ran
    exact ⟨UdpMatching.answered_preserved valid.answered served,by rw [serve_asked served]; exact valid.sent⟩
  | other datagram =>
    obtain ⟨net,taken,rfl⟩ := Option.map_eq_some_iff.mp ran
    exact ⟨UdpMatching.answered_preserved valid.answered taken,by rw [other_asked taken]; exact valid.sent⟩
  | deliver k =>
    obtain ⟨net,came,rfl⟩ := Option.map_eq_some_iff.mp ran
    refine ⟨UdpMatching.answered_preserved valid.answered came,?_⟩
    obtain ⟨_,_,_,_,_,rfl⟩ := UdpMatching.deliver_parts came
    nofun

theorem tells_iff {out : UdpMatching.Line} (shows_ : UdpMatching.Shows known out) : Tells line (sentence out) ↔ Asks line known := by
  constructor
  · rintro ⟨q,asks,other,told,same⟩
    cases sentence_inj same
    cases (UdpMatching.shows_iff shows_).mp told
    exact asks
  · exact fun asks => ⟨known,asks,out,shows_,rfl⟩

theorem faithful_step (valid : Valid s) (faithful : Faithful s) (ran : step s action = some next) :
    Faithful next ↔ Told s action := by
  cases action with
  | type line => rcases type_parts ran with ⟨rfl,_⟩ | ⟨q,after,net,_,_,rfl⟩ <;> exact iff_of_true faithful trivial
  | serve k =>
    obtain ⟨net,_,rfl⟩ := Option.map_eq_some_iff.mp ran
    exact iff_of_true faithful trivial
  | other datagram =>
    obtain ⟨net,_,rfl⟩ := Option.map_eq_some_iff.mp ran
    exact iff_of_true faithful trivial
  | deliver k =>
    obtain ⟨net,came,rfl⟩ := Option.map_eq_some_iff.mp ran
    obtain ⟨q,known,held,_,found,rfl⟩ := UdpMatching.deliver_parts came
    have shows_ := (valid.answered known held (List.mem_of_getElem? found)).2
    constructor
    · intro after other sent came
      obtain ⟨rfl,rfl⟩ := Prod.mk.inj (Option.some.inj (found.symm.trans came))
      exact (tells_iff shows_).mp (after _ _ (List.mem_append_right _ (List.mem_singleton_self _)))
    · intro told line shown member
      rcases List.mem_append.mp member with old | new
      · exact faithful line shown old
      · obtain ⟨rfl,rfl⟩ := Prod.mk.inj (List.mem_singleton.mp new)
        exact (tells_iff shows_).mpr (told known held found)

theorem asks_own (asks : Asks line other) (sent : (turn before line).request = some (some q)) : q = other := by
  obtain ⟨typed,left,op,right,tail,rfl,plain,rfl⟩ := asks
  by_cases quits : CalculatorInput.Quits typed
  · rw [CalculatorInput.turn_request,if_pos quits] at sent
    cases sent
  · rw [CalculatorInput.request_plain before quits plain] at sent
    exact (Option.some.inj (Option.some.inj sent)).symm

-- From the keyboard to the screen: a line that asks something is sent as what it
-- asks, and every text that is printed tells the question of the line before it
-- exactly where each reply that comes is to what that line asks.
theorem session_told (ran : run step (initial input sdata server) actions = some s) :
    (∀ q other, s.net.asked = some q → Asks s.line other → q = other) ∧
    (Always step Faithful (initial input sdata server) actions ↔ Every step Told (initial input sdata server) actions) := by
  constructor
  · intro q other waits asks
    have valid : Valid s := run_invariant (fun _ _ _ valid ran => valid_preserved valid ran) (initial_valid input sdata server) ran
    obtain ⟨before,sent⟩ := valid.sent q waits
    exact asks_own asks sent
  · exact always_iff_every (fun _ _ _ valid _ ran => valid_preserved valid ran)
      (fun _ _ _ valid faithful ran => faithful_step valid faithful ran)
      (initial_valid input sdata server) (by simp [Faithful,initial]) ran

def again : List Action :=
  [.type (some ⟨ascii "1+2\n",by decide⟩),.serve 0,.deliver 0,.type (some ⟨ascii "3*4\n",by decide⟩),.serve 1,.deliver 0]

def begun : State := initial ⟨[],0,[],0⟩ fresh.rdata fresh

theorem session_told_again : ∃ s, run step begun again = some s ∧
    s.screen.map Prod.snd = [ascii "1 + 2 = 3\n",ascii "1 + 2 = 3\n"] ∧ ¬ Every step Told begun again := by
  have ends : (run step begun again).map State.screen =
      some [(some ⟨ascii "1+2\n",by decide⟩,ascii "1 + 2 = 3\n"),(some ⟨ascii "3*4\n",by decide⟩,ascii "1 + 2 = 3\n")] := by
    decide +kernel
  obtain ⟨s,ran,screen⟩ := Option.map_eq_some_iff.mp ends
  refine ⟨s,ran,by rw [screen]; rfl,fun every => ?_⟩
  have faithful : Faithful s := always_last ((session_told ran).2.mpr every) ran
  have tells := faithful (some ⟨ascii "3*4\n",by decide⟩) (ascii "1 + 2 = 3\n") (by rw [screen]; simp)
  have first : UdpMatching.Shows ⟨1,byteOf '+',2⟩ ⟨1,byteOf '+',2,3⟩ := by
    refine ⟨⟨rfl,rfl,rfl⟩,fun value found => ?_⟩
    cases found
    decide
  have text : ascii "1 + 2 = 3\n" = sentence ⟨1,byteOf '+',2,3⟩ := by decide
  rw [text,tells_iff first] at tells
  have sent : (turn ⟨[],0,[],0⟩ (some ⟨ascii "3*4\n",by decide⟩)).request = some (some ⟨3,byteOf '*',4⟩) := by decide
  cases asks_own tells sent

end NetworkEx.UdpSession
