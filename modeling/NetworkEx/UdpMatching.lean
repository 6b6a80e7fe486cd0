import NetworkEx.UdpCorrectness

namespace NetworkEx.UdpMatching
open ByteStreams CText TransitionRuns UdpCalculator UdpCorrectness

-- The four values of the client's printf.
structure Line where
  leftNum : BitVec 32
  op : UInt8
  rightNum : BitVec 32
  result : BitVec 32
  deriving DecidableEq

def printed (sdata : Region) : Line :=
  let data := fields sdata.val
  ⟨data.leftNum,data.op,data.rightNum,data.result⟩

-- One client at address 0 and the server, which may have trapped. What either
-- has sent stays on the network for good: it can come late, again, or out of
-- order. With each reply stands the question it answers, and with each line
-- the question it was printed after; no datagram carries either.
structure State where
  sdata : Region
  asked : Option Question
  server : Option UdpCalculator.State
  requests : List Question
  replies : List (Question × Region)
  lines : List (Question × Line)

def initial (sdata : Region) (server : UdpCalculator.State) : State := ⟨sdata,none,some server,[],[],[]⟩

-- A line is read and sent; the server takes a request of this client or the
-- datagram of another one; the client receives a reply.
inductive Action where
  | ask (q : Question)
  | serve (k : Nat)
  | other (datagram : Datagram)
  | deliver (k : Nat)

def step (s : State) : Action → Option State
  | .ask q =>
    if s.asked = none then
      some {s with sdata := ⟨q.encode,encode_length q⟩,asked := some q,requests := s.requests ++ [q]}
    else none
  | .serve k =>
    s.server.bind fun server => (s.requests[k]?).map fun q =>
      match UdpCalculator.serve server ⟨0,q.encode⟩ with
      | none => {s with server := none}
      | some next => {s with server := some next,replies := s.replies ++ [(q,next.rdata)]}
  | .other datagram =>
    if datagram.cliaddr = 0 then none
    else s.server.map fun server => {s with server := UdpCalculator.serve server datagram}
  | .deliver k =>
    s.asked.bind fun q => (s.replies[k]?).map fun (_,held) =>
      let sdata := receive held.val s.sdata
      {s with sdata := sdata,asked := none,lines := s.lines ++ [(q,printed sdata)]}

def Shows (q : Question) (line : Line) : Prop :=
  (line.leftNum = q.leftNum ∧ line.op = q.op ∧ line.rightNum = q.rightNum) ∧
    ∀ value, exactResult q.leftNum.toInt q.rightNum.toInt q.op = some value → line.result = BitVec.ofInt 32 value

def served : Action → Option Nat
  | .serve k => some k
  | _ => none

def delivered : Action → Option Nat
  | .deliver k => some k
  | _ => none

def Answered (s : State) : Prop := ∀ q held, (q,held) ∈ s.replies → q ∈ s.requests ∧ Shows q (printed held)

section Steps

variable {q known : Question} {held sdata : Region} {server : UdpCalculator.State} {s next : State}

theorem ask_parts (ran : step s (.ask q) = some next) :
    next = {s with sdata := ⟨q.encode,encode_length q⟩,asked := some q,requests := s.requests ++ [q]} := by
  simp only [step,Option.ite_none_right_eq_some,Option.some.injEq] at ran
  exact ran.2.symm

theorem serve_parts (ran : step s (.serve k) = some next) :
    next = {s with server := none} ∨ ∃ server q after, s.requests[k]? = some q ∧ UdpCalculator.serve server ⟨0,q.encode⟩ = some after ∧
      next = {s with server := some after,replies := s.replies ++ [(q,after.rdata)]} := by
  simp only [step,Option.bind_eq_some_iff,Option.map_eq_some_iff] at ran
  obtain ⟨server,_,q,requested,same⟩ := ran
  cases answered : UdpCalculator.serve server ⟨0,q.encode⟩ with
  | none => rw [answered] at same; exact .inl same.symm
  | some after => rw [answered] at same; exact .inr ⟨server,q,after,requested,answered,same.symm⟩

theorem other_parts (ran : step s (.other datagram) = some next) :
    ∃ server, next = {s with server := UdpCalculator.serve server datagram} := by
  simp only [step,Option.ite_none_left_eq_some,Option.map_eq_some_iff] at ran
  obtain ⟨_,server,_,same⟩ := ran
  exact ⟨server,same.symm⟩

theorem receive_reply (held sdata : Region) : receive held.val sdata = held := by
  apply Subtype.ext
  have whole : held.val.take sizeofCalData = held.val := List.take_of_length_le (Nat.le_of_eq held.property)
  have covered : sdata.val.length ≤ held.val.length := Nat.le_of_eq (sdata.property.trans held.property.symm)
  simp only [receive,whole]
  exact overlay_whole covered

theorem deliver_parts (ran : step s (.deliver k) = some next) :
    ∃ q known held, s.asked = some q ∧ s.replies[k]? = some (known,held) ∧
      next = {s with sdata := held,asked := none,lines := s.lines ++ [(q,printed held)]} := by
  simp only [step,Option.bind_eq_some_iff,Option.map_eq_some_iff] at ran
  obtain ⟨q,asked,⟨known,held⟩,found,same⟩ := ran
  simp only [receive_reply] at same
  exact ⟨q,known,held,asked,found,same.symm⟩

theorem initial_answered (sdata : Region) (server : UdpCalculator.State) : Answered (initial sdata server) := by
  simp [Answered,initial]

theorem respond_operands {request : CalData} (responded : respond request calResult = some data) :
    data.leftNum = request.leftNum ∧ data.op = request.op ∧ data.rightNum = request.rightNum := by
  unfold respond at responded
  split_ifs at responded <;> cases responded <;> exact ⟨rfl,rfl,rfl⟩

theorem serve_shows {after : UdpCalculator.State} (ran : UdpCalculator.serve server ⟨0,q.encode⟩ = some after) :
    Shows q (printed after.rdata) := by
  have served := serve_encode server 0 q
  rw [ran,Option.map_some,eq_comm,Option.map_eq_some_iff] at served
  obtain ⟨data,responded,same⟩ := served
  have shown : fields after.rdata.val = data := (Prod.mk.inj same).2.symm
  simp only [Shows,printed,shown]
  refine ⟨respond_operands responded,?_⟩
  intro value found
  by_cases traps : Traps q.leftNum q.rightNum q.op
  · rw [respond_trap traps] at responded
    cases responded
  · rw [respond_computes (exactResult_computes found traps)] at responded
    rw [← Option.some.inj responded]
    exact computed_exactResult found

theorem answered_preserved (valid : Answered s) (ran : step s action = some next) : Answered next := by
  cases action with
  | ask q =>
    rw [ask_parts ran]
    intro known held member
    exact ⟨List.mem_append_left _ (valid known held member).1,(valid known held member).2⟩
  | other datagram =>
    obtain ⟨server,rfl⟩ := other_parts ran
    exact valid
  | deliver k =>
    obtain ⟨q,known,held,_,_,rfl⟩ := deliver_parts ran
    exact valid
  | serve k =>
    rcases serve_parts ran with rfl | ⟨server,q,after,requested,served,rfl⟩
    · exact valid
    · intro known held member
      rcases List.mem_append.mp member with old | new
      · exact valid known held old
      · obtain ⟨rfl,rfl⟩ := Prod.mk.inj (List.mem_singleton.mp new)
        exact ⟨List.mem_of_getElem? requested,serve_shows served⟩

theorem shows_iff (shows : Shows known line) : Shows q line ↔ known = q := by
  constructor
  · intro ⟨⟨left,op,right⟩,_⟩
    obtain ⟨⟨knownLeft,knownOp,knownRight⟩,_⟩ := shows
    cases known
    simp only at knownLeft knownOp knownRight
    rw [← knownLeft,← knownOp,← knownRight,left,op,right]
  · intro same
    rw [← same]
    exact shows

end Steps

def start : State := initial fresh.rdata fresh

def oneAnswer : List Action := [.ask ⟨1,byteOf '+',2⟩,.serve 0,.deliver 0]

def repeated : List Action := oneAnswer ++ [.ask ⟨3,byteOf '*',4⟩,.serve 1,.deliver 0]

end NetworkEx.UdpMatching
