import NetworkEx.TcpCalculator
import NetworkEx.TransitionRuns

namespace NetworkEx.TcpIsolation
open ByteStreams CText WireWords TransitionRuns TcpCalculator
open UdpCalculator (CalData Region sizeofCalData store receive fields getD_overlay getD_writeAt getD_drop)

-- What a client sends on one connection, and how much of it the one read of the
-- server brings: none of it where the stream ends first.
structure Connection where
  received : Bytes
  later : Bytes
  fits : received.length ≤ sizeofCalData
  ended : received = [] → later = []

def Connection.stream (c : Connection) : Bytes := c.received ++ c.later

def step (s : State) (c : Connection) : Option State := some (serve s c.received)

-- All of rdata is written back, its padding too.
def written (s : State) (c : Connection) : Bytes := (serve s c.received).rdata.val

def Gives (rdata : Bytes) : Prop :=
  let op := rdata.getD 8 0
  op = byteOf '+' ∨ op = byteOf '-' ∨ op = byteOf '*' ∨ op = byteOf '/' ∧ upper (word32 (rdata.drop 4)) ≠ 0

instance (rdata : Bytes) : Decidable (Gives rdata) := inferInstanceAs (Decidable (_ ∨ _ ∨ _ ∨ _))

def Whole (c : Connection) : Prop := c.received.length = sizeofCalData ∧ Gives c.received

theorem cleared_front (rdata : Region) (inside : i < 16) :
    (store rdata 16 (host16 0) error_inside).val.getD i 0 = rdata.val.getD i 0 := by
  have long : 16 ≤ rdata.val.length := by rw [rdata.property]; decide
  simp only [store]
  rw [getD_writeAt long,if_pos inside]

theorem cleared_gives {rdata : Region} (gives : Gives rdata.val) :
    Gives (store rdata 16 (host16 0) error_inside).val := by
  have op := cleared_front rdata (show 8 < 16 by decide)
  have right : word32 ((store rdata 16 (host16 0) error_inside).val.drop 4) = word32 (rdata.val.drop 4) := by
    simp only [word32,getD_drop,Nat.reduceAdd,cleared_front rdata,Nat.reduceLT]
  unfold Gives
  rw [op,right]
  exact gives

theorem switch_fresh (gives : Gives rdata.val) (calResult other : BitVec 16) :
    switch rdata calResult = switch rdata other := by
  unfold switch
  rcases gives with plus | minus | times | ⟨divides,nonzero⟩
  · simp only [plus,if_true]
  · simp only [minus,if_true]
  · simp only [times,if_true]
  · have right : ntohs (rdata.val.drop 4) ≠ 0 := by
      rw [ntohs_upper]
      exact (widened_zero _).not.mpr nonzero
    simp only [divides,right,if_true,if_false]

theorem whole_same {received : Bytes} (length : received.length = sizeofCalData) (gives : Gives received) (s t : State) :
    serve s received = serve t received := by
  have brought : ∀ u : State, receive received u.rdata = ⟨received,length⟩ := by
    intro u
    apply Subtype.ext
    simp only [receive]
    rw [List.take_of_length_le (Nat.le_of_eq length)]
    exact overlay_whole (Nat.le_of_eq (u.rdata.property.trans length.symm))
  unfold serve
  rw [brought s,brought t]
  exact switch_fresh (cleared_gives gives) _ _

theorem answer_last (rdata : Region) (calResult : BitVec 16) :
    (answer rdata calResult).rdata.val.getD 19 0 = rdata.val.getD 19 0 := by
  have long : 12 ≤ rdata.val.length := by rw [rdata.property]; decide
  have longer : 16 ≤ (writeAt rdata.val 12 (be32 (calResult.signExtend 32))).length := by
    rw [writeAt_length,rdata.property,be32_length]
    decide
  simp only [answer,store]
  rw [getD_writeAt longer,getD_writeAt long]
  rfl

theorem store_last (rdata : Region) (word : BitVec 16) :
    (store rdata 16 (host16 word) error_inside).val.getD 19 0 = rdata.val.getD 19 0 := by
  have long : 16 ≤ rdata.val.length := by rw [rdata.property]; decide
  simp only [store]
  rw [getD_writeAt long]
  rfl

theorem switch_last (rdata : Region) (calResult : BitVec 16) :
    (switch rdata calResult).rdata.val.getD 19 0 = rdata.val.getD 19 0 := by
  simp only [switch]
  split_ifs <;> simp only [answer_last,store_last]

theorem serve_last (s : State) (received : Bytes) :
    (serve s received).rdata.val.getD 19 0 =
      if 19 < (received.take sizeofCalData).length then received.getD 19 0 else s.rdata.val.getD 19 0 := by
  rw [serve,switch_last,store_last]
  simp only [receive,getD_overlay]
  split
  · rename_i inside
    rw [List.getD_eq_getElem?_getD,List.getD_eq_getElem?_getD,List.getElem?_take_of_lt (by decide)]
  · rfl

theorem short_stale {received : Bytes} (short : received.length < sizeofCalData) {s t : State}
    (same : (serve s received).rdata.val = (serve t received).rdata.val) :
    s.rdata.val.getD 19 0 = t.rdata.val.getD 19 0 := by
  have last := congrArg (·.getD 19 0) same
  simp only [serve_last] at last
  have outside : ¬ 19 < (received.take sizeofCalData).length := by
    rw [List.length_take]
    unfold sizeofCalData at short
    omega
  rwa [if_neg outside,if_neg outside] at last

theorem kept_result {rdata : Bytes} (kept : ¬ Gives rdata) (calResult : BitVec 16) :
    let request := fields rdata
    shortResult (upper request.leftNum) (upper request.rightNum) request.op calResult = calResult := by
  show shortResult (upper (word32 rdata)) (upper (word32 (rdata.drop 4))) (rdata.getD 8 0) calResult = calResult
  simp only [Gives,not_or] at kept
  obtain ⟨plus,minus,times,divides⟩ := kept
  simp only [shortResult,plus,minus,times,if_false]
  by_cases slash : rdata.getD 8 0 = byteOf '/'
  · have zero := not_not.mp fun nonzero => divides ⟨slash,nonzero⟩
    rw [if_pos slash,if_pos zero]
  · rw [if_neg slash]

theorem refused_stale {received : Bytes} (length : received.length = sizeofCalData) (kept : ¬ Gives received) (s : State) :
    (reply (serve s received)).error = s.calResult := by
  have brought : receive received s.rdata = ⟨received,length⟩ := by
    apply Subtype.ext
    simp only [receive]
    rw [List.take_of_length_le (Nat.le_of_eq length)]
    exact overlay_whole (Nat.le_of_eq (s.rdata.property.trans length.symm))
  rw [serve_reply]
  simp only [held,brought]
  exact kept_result kept s.calResult

def probe (b : UInt8) : Connection :=
  ⟨[0,b,0,0,0,0,0,0,byteOf '+',0,0,0,0,0,0,0,0,0,0,b],[],Nat.le_refl _,fun _ => rfl⟩

theorem probe_gives (b : UInt8) : Gives (probe b).received := .inl rfl

theorem probe_last (s : State) (b : UInt8) : (serve s (probe b).received).rdata.val.getD 19 0 = b := by
  rw [serve_last]
  rfl

theorem probe_result (s : State) : (serve s (probe 0).received).calResult = 0 ∧ (serve s (probe 1).received).calResult = 1 := by
  rw [whole_same rfl (probe_gives 0) s fresh,whole_same rfl (probe_gives 1) s fresh]
  decide

theorem told_apart (start : State) (partly : ¬ Whole c) :
    written (serve start (probe 0).received) c ≠ written (serve start (probe 1).received) c := by
  intro same
  by_cases length : c.received.length = sizeofCalData
  · have stale := refused_stale length (fun gives => partly ⟨length,gives⟩)
    have error := congrArg (fun rdata => (fields rdata).error) same
    have results := (stale _).symm.trans (error.trans (stale _))
    rw [(probe_result start).1,(probe_result start).2] at results
    exact absurd results (by decide)
  · have short := Nat.lt_of_le_of_ne c.fits length
    have last := short_stale short same
    rw [probe_last,probe_last] at last
    exact absurd last (by decide)

def answerOf (stream : Bytes) : Bytes := (serve fresh (stream.take sizeofCalData)).rdata.val

theorem whole_answered (whole : Whole c) (s : State) : written s c = answerOf c.stream := by
  have all : c.stream.take sizeofCalData = c.received := by
    rw [Connection.stream,← whole.1]
    exact List.take_left
  rw [written,answerOf,all,whole_same whole.1 whole.2 s fresh]

-- Whatever connections may come to be judged, after any others at all: their
-- answers are made of their streams exactly where each is read whole and gets
-- a result of its own.
theorem tcp_isolated_exact (start : State) (allowed : Connection → Prop) :
    (∃ answered : Bytes → Bytes, ∀ history c s, allowed c → run step start history = some s →
      written s c = answered c.stream) ↔ ∀ c, allowed c → Whole c := by
  constructor
  · intro ⟨answered,isolated⟩ c permitted
    by_contra partly
    have first := isolated [probe 0] c _ permitted rfl
    have second := isolated [probe 1] c _ permitted rfl
    exact told_apart start partly (first.trans second.symm)
  · intro whole
    refine ⟨answerOf,?_⟩
    intro history c s permitted ran
    exact whole_answered (whole c permitted) s

def silent : Connection := ⟨[],[],by decide,fun _ => rfl⟩
def unknown : Connection := ⟨List.replicate 20 0,[],by decide,by decide⟩

theorem records_exposed :
    written (serve fresh (probe 0).received) silent ≠ written (serve fresh (probe 1).received) silent ∧
    written (serve fresh (probe 0).received) unknown ≠ written (serve fresh (probe 1).received) unknown ∧
    ¬ ∃ answered : Bytes → Bytes, ∀ history c s, run step fresh history = some s → written s c = answered c.stream := by
  have apart : written (serve fresh (probe 0).received) silent ≠ written (serve fresh (probe 1).received) silent := by
    decide +kernel
  refine ⟨apart,by decide +kernel,?_⟩
  intro ⟨answered,isolated⟩
  have first := isolated [probe 0] silent _ rfl
  have second := isolated [probe 1] silent _ rfl
  exact apart (first.trans second.symm)

end NetworkEx.TcpIsolation
