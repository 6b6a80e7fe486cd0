import NetworkEx.CText
import NetworkEx.TransitionRuns
import NetworkEx.WireWords

namespace NetworkEx.UdpCalculator
open ByteStreams CText TransitionRuns WireWords

-- struct cal_data in memory: left_num at 0, right_num at 4, op at 8, result at
-- 12, error at 16. The bytes between and after them are padding.
def sizeofCalData : Nat := 20

abbrev Region := {bytes : Bytes // bytes.length = sizeofCalData}

structure CalData where
  leftNum : BitVec 32
  rightNum : BitVec 32
  op : UInt8
  result : BitVec 32
  error : BitVec 16
  deriving DecidableEq

def fields (rdata : Bytes) : CalData :=
  ⟨word32 rdata,word32 (rdata.drop 4),rdata.getD 8 0,word32 (rdata.drop 12),word16 (rdata.drop 16)⟩

structure Datagram where
  cliaddr : Nat
  bytes : Bytes

-- main's locals that outlive one turn of its loop.
structure State where
  cliaddr : Nat
  rdata : Region
  calResult : BitVec 32

-- recvfrom drops what does not fit and leaves alone what it does not reach.
def receive (datagram : Bytes) (rdata : Region) : Region :=
  ⟨overlay (datagram.take sizeofCalData) rdata.val,by
    rw [overlay_length,rdata.property,List.length_take]; omega⟩

def store (rdata : Region) (offset : Nat) (word : Bytes) (inside : offset + word.length ≤ sizeofCalData) : Region :=
  ⟨writeAt rdata.val offset word,by
    have within : offset ≤ rdata.val.length := by rw [rdata.property]; omega
    rw [writeAt_inside within,List.length_append,overlay_length,List.length_take,List.length_drop,rdata.property]
    omega⟩

def answer (cliaddr : Nat) (rdata : Region) (calResult : BitVec 32) : Option State :=
  some ⟨cliaddr,store rdata 12 (be32 calResult) (by simp [sizeofCalData]),calResult⟩

-- One turn of main's loop; sendto sends rdata as it is then. Sums and products
-- wrap. The one quotient that does not fit an int traps and ends the process.
def serve (s : State) (datagram : Datagram) : Option State :=
  let rdata := receive datagram.bytes s.rdata
  let request := fields rdata.val
  if request.op = byteOf '+' then answer datagram.cliaddr rdata (request.leftNum + request.rightNum)
  else if request.op = byteOf '-' then answer datagram.cliaddr rdata (request.leftNum - request.rightNum)
  else if request.op = byteOf '*' then answer datagram.cliaddr rdata (request.leftNum * request.rightNum)
  else if request.op = byteOf '/' then
    if request.rightNum = 0 then
      answer datagram.cliaddr (store rdata 16 (be16 2) (by simp [sizeofCalData])) s.calResult
    else if request.leftNum = BitVec.intMin 32 ∧ request.rightNum = -1 then none
    else answer datagram.cliaddr rdata (request.leftNum.sdiv request.rightNum)
  else answer datagram.cliaddr rdata s.calResult

def reply (s : State) : Nat × CalData := (s.cliaddr,fields s.rdata.val)

-- The reply in terms of the fields as received and the last cal_result.
def respond (request : CalData) (calResult : BitVec 32) : Option CalData :=
  if request.op = byteOf '+' then some {request with result := request.leftNum + request.rightNum}
  else if request.op = byteOf '-' then some {request with result := request.leftNum - request.rightNum}
  else if request.op = byteOf '*' then some {request with result := request.leftNum * request.rightNum}
  else if request.op = byteOf '/' then
    if request.rightNum = 0 then some {request with result := calResult,error := 2}
    else if request.leftNum = BitVec.intMin 32 ∧ request.rightNum = -1 then none
    else some {request with result := request.leftNum.sdiv request.rightNum}
  else some {request with result := calResult}

def Traps (leftNum rightNum : BitVec 32) (op : UInt8) : Prop :=
  op = byteOf '/' ∧ leftNum = BitVec.intMin 32 ∧ rightNum = -1

def Computes (leftNum rightNum : BitVec 32) (op : UInt8) : Prop :=
  op = byteOf '+' ∨ op = byteOf '-' ∨ op = byteOf '*' ∨
    (op = byteOf '/' ∧ rightNum ≠ 0 ∧ ¬ (leftNum = BitVec.intMin 32 ∧ rightNum = -1))

-- The datagram brings all that its reply is made of: both operands and an
-- operator that gives a result for them, and the error field.
def Determined (datagram : Bytes) : Prop :=
  let leftNum := word32 datagram
  let rightNum := word32 (datagram.drop 4)
  let op := datagram.getD 8 0
  (9 ≤ datagram.length ∧ Traps leftNum rightNum op) ∨ (18 ≤ datagram.length ∧ Computes leftNum rightNum op)

theorem getD_drop (bytes : Bytes) (k i : Nat) : (bytes.drop k).getD i 0 = bytes.getD (k+i) 0 := by
  simp [List.getD]

theorem getD_overlay (bytes region : Bytes) (i : Nat) :
    (overlay bytes region).getD i 0 = if i < bytes.length then bytes.getD i 0 else region.getD i 0 := by
  simp only [List.getD,overlay_getElem?]
  split <;> rfl

theorem getD_writeAt (inside : offset ≤ file.length) (bytes : Bytes) (i : Nat) :
    (writeAt file offset bytes).getD i 0 =
      if i < offset then file.getD i 0 else if i < offset + bytes.length then bytes.getD (i - offset) 0 else file.getD i 0 := by
  have front : (file.take offset).length = offset := by rw [List.length_take]; omega
  rw [writeAt_inside inside]
  by_cases before : i < offset
  · rw [if_pos before,List.getD,List.getElem?_append_left (by omega),List.getElem?_take,if_pos before,List.getD]
  · rw [if_neg before,List.getD,List.getElem?_append_right (by omega),front,← List.getD,getD_overlay]
    by_cases within : i < offset + bytes.length
    · rw [if_pos within,if_pos (by omega)]
    · rw [if_neg within,if_neg (by omega),getD_drop]
      congr 1; omega

theorem fields_result (long : rdata.length = sizeofCalData) (word : BitVec 32) :
    fields (writeAt rdata 12 (be32 word)) = {fields rdata with result := word} := by
  have inside : 12 ≤ rdata.length := by rw [long]; decide
  have read : word32 ((writeAt rdata 12 (be32 word)).drop 12) = word := by
    rw [writeAt_inside inside,List.drop_left' (by rw [List.length_take]; omega),overlay,word32_be32]
  simp only [fields,read]
  simp only [word32,word16,getD_drop,getD_writeAt inside,be32_length,Nat.reduceAdd,Nat.reduceLT,if_true,if_false]

theorem fields_error (long : rdata.length = sizeofCalData) (word : BitVec 16) :
    fields (writeAt rdata 16 (be16 word)) = {fields rdata with error := word} := by
  have inside : 16 ≤ rdata.length := by rw [long]; decide
  have read : word16 ((writeAt rdata 16 (be16 word)).drop 16) = word := by
    rw [writeAt_inside inside,List.drop_left' (by rw [List.length_take]; omega),overlay,word16_be16]
  simp only [fields,read]
  simp only [word32,getD_drop,getD_writeAt inside,be16_length,Nat.reduceAdd,Nat.reduceLT,if_true]

theorem answer_reply (cliaddr : Nat) (rdata : Region) (calResult : BitVec 32) :
    (answer cliaddr rdata calResult).map reply = some (cliaddr,{fields rdata.val with result := calResult}) := by
  simp [answer,reply,store,fields_result rdata.property]

theorem serve_reply (s : State) (datagram : Datagram) :
    (serve s datagram).map reply =
      (respond (fields (receive datagram.bytes s.rdata).val) s.calResult).map fun data => (datagram.cliaddr,data) := by
  have failed := fun word => fields_error (receive datagram.bytes s.rdata).property word
  simp only [serve,respond]
  split_ifs <;> simp [answer_reply,store,failed]

theorem fields_received (long : 18 ≤ datagram.length) (rdata other : Region) :
    (fields (receive datagram rdata).val).error = (fields (receive datagram other).val).error := by
  simp only [fields,receive,word16,getD_drop,getD_overlay,List.length_take,sizeofCalData]
  rw [if_pos (by omega),if_pos (by omega),if_pos (by omega),if_pos (by omega)]

theorem request_received (long : 9 ≤ datagram.length) (rdata : Region) :
    (fields (receive datagram rdata).val).leftNum = word32 datagram ∧
      (fields (receive datagram rdata).val).rightNum = word32 (datagram.drop 4) ∧
      (fields (receive datagram rdata).val).op = datagram.getD 8 0 := by
  have whole : ∀ i, i < 9 → (receive datagram rdata).val.getD i 0 = datagram.getD i 0 := by
    intro i inside
    simp only [receive,getD_overlay,List.length_take,sizeofCalData]
    rw [if_pos (by omega),List.getD,List.getElem?_take,if_pos (by omega),List.getD]
  refine ⟨?_,?_,whole 8 (by decide)⟩ <;>
    simp only [fields,word32,getD_drop,Nat.reduceAdd,whole,Nat.reduceLT]

theorem op_stale (short : datagram.length < 9) (rdata : Region) :
    (fields (receive datagram rdata).val).op = rdata.val.getD 8 0 := by
  rw [fields,receive]
  simp only [getD_overlay,List.length_take,sizeofCalData]
  rw [if_neg (by omega)]

theorem error_stale (short : datagram.length < 18) {rdata other : Region}
    (same : (fields (receive datagram rdata).val).error = (fields (receive datagram other).val).error) :
    rdata.val.getD 17 0 = other.val.getD 17 0 := by
  have low := word16_low same
  simp only [receive,getD_drop,getD_overlay,List.length_take,sizeofCalData] at low
  rwa [if_neg (by omega),if_neg (by omega)] at low

theorem slash_apart : byteOf '/' ≠ byteOf '+' ∧ byteOf '/' ≠ byteOf '-' ∧ byteOf '/' ≠ byteOf '*' := by decide

theorem respond_trap {request : CalData} (traps : Traps request.leftNum request.rightNum request.op) (calResult : BitVec 32) :
    respond request calResult = none := by
  obtain ⟨op,left,right⟩ := traps
  have nonzero : (-1 : BitVec 32) ≠ 0 := by decide
  simp only [respond,op,left,right,slash_apart,nonzero,and_self,if_true,if_false]

-- A computed result owes nothing to cal_result or to the rest of the request.
def computed (leftNum rightNum : BitVec 32) (op : UInt8) : BitVec 32 :=
  if op = byteOf '+' then leftNum + rightNum
  else if op = byteOf '-' then leftNum - rightNum
  else if op = byteOf '*' then leftNum * rightNum
  else leftNum.sdiv rightNum

theorem respond_computes {request : CalData} (computes : Computes request.leftNum request.rightNum request.op)
    (calResult : BitVec 32) :
    respond request calResult =
      some {request with result := computed request.leftNum request.rightNum request.op} := by
  unfold respond computed
  rcases computes with plus | minus | times | ⟨op,nonzero,fits⟩
  · rw [if_pos plus,if_pos plus]
  · split_ifs <;> rfl
  · split_ifs <;> rfl
  · split_ifs <;> rfl

theorem respond_stale {request : CalData} (computes : ¬ Computes request.leftNum request.rightNum request.op)
    (traps : ¬ Traps request.leftNum request.rightNum request.op) (calResult : BitVec 32) :
    (respond request calResult).map CalData.result = some calResult := by
  simp only [Computes,Traps,not_or,not_and] at computes traps
  obtain ⟨plus,minus,times,divides⟩ := computes
  rw [respond,if_neg plus,if_neg minus,if_neg times]
  split_ifs with op zero fails
  · rfl
  · exact absurd fails.2 (traps op fails.1)
  · exact absurd (fun left right => fails ⟨left,right⟩) (divides op zero)
  · rfl

def wholeRequest (right : BitVec 32) (error : BitVec 16) : Bytes :=
  be32 0 ++ be32 right ++ [byteOf '+',0,0,0] ++ be32 0 ++ be16 error ++ [0,0]

theorem serve_whole (s : State) (right : BitVec 32) (error : BitVec 16) :
    ∃ next, serve s ⟨0,wholeRequest right error⟩ = some next ∧ next.calResult = right ∧
      next.rdata.val.getD 8 0 = byteOf '+' ∧ next.rdata.val.getD 17 0 = ⟨error.extractLsb' 0 8⟩ := by
  have length : (wholeRequest right error).length = sizeofCalData := rfl
  have received : receive (wholeRequest right error) s.rdata = ⟨wholeRequest right error,length⟩ :=
    Subtype.ext (overlay_whole (by rw [s.rdata.property]; exact Nat.le_refl _))
  have left : (fields (wholeRequest right error)).leftNum = 0 := word32_be32 0 _
  have rights : (fields (wholeRequest right error)).rightNum = right := word32_be32 right _
  have op : (fields (wholeRequest right error)).op = byteOf '+' := rfl
  have sum : 0 + right = right := BitVec.zero_add right
  refine ⟨⟨0,store ⟨wholeRequest right error,length⟩ 12 (be32 right) (by simp [sizeofCalData]),right⟩,?_,rfl,rfl,rfl⟩
  simp only [serve,received,op,if_true,answer,left,rights,sum]

-- Two memories that differ in cal_result and in the last byte of the error
-- field tell apart the replies to whatever is not determined.
theorem undetermined_differs (undetermined : ¬ Determined datagram.bytes) (results : s.calResult ≠ t.calResult)
    (errors : s.rdata.val.getD 17 0 ≠ t.rdata.val.getD 17 0) (plus : s.rdata.val.getD 8 0 = byteOf '+')
    (plusThere : t.rdata.val.getD 8 0 = byteOf '+') :
    (serve s datagram).map reply ≠ (serve t datagram).map reply := by
  rw [serve_reply,serve_reply]
  intro same
  have same := Option.map_injective (fun _ _ equal => (Prod.mk.inj equal).2) same
  by_cases short : datagram.bytes.length < 9
  · have early : datagram.bytes.length < 18 := by omega
    have here := respond_computes (.inl ((op_stale short s.rdata).trans plus)) s.calResult
    have there := respond_computes (.inl ((op_stale short t.rdata).trans plusThere)) t.calResult
    rw [here,there] at same
    have stale := congrArg CalData.error (Option.some.inj same)
    exact errors (error_stale early stale)
  have long : 9 ≤ datagram.bytes.length := Nat.le_of_not_lt short
  obtain ⟨left,right,op⟩ := request_received long s.rdata
  obtain ⟨leftThere,rightThere,opThere⟩ := request_received long t.rdata
  have traps : ¬ Traps (word32 datagram.bytes) (word32 (datagram.bytes.drop 4)) (datagram.bytes.getD 8 0) :=
    fun traps => undetermined (.inl ⟨long,traps⟩)
  by_cases computes : Computes (word32 datagram.bytes) (word32 (datagram.bytes.drop 4)) (datagram.bytes.getD 8 0)
  · have early : datagram.bytes.length < 18 := by
      by_contra late
      exact undetermined (.inr ⟨Nat.le_of_not_lt late,computes⟩)
    have here := respond_computes (by rw [left,right,op]; exact computes) s.calResult
    have there := respond_computes (by rw [leftThere,rightThere,opThere]; exact computes) t.calResult
    rw [here,there] at same
    have stale := congrArg CalData.error (Option.some.inj same)
    exact errors (error_stale early stale)
  · have here := respond_stale (by rw [left,right,op]; exact computes) (by rw [left,right,op]; exact traps) s.calResult
    have there := respond_stale (by rw [leftThere,rightThere,opThere]; exact computes)
      (by rw [leftThere,rightThere,opThere]; exact traps) t.calResult
    rw [same,there] at here
    exact results (Option.some.inj here).symm

theorem determined_same (determined : Determined datagram.bytes) (s t : State) :
    (serve s datagram).map reply = (serve t datagram).map reply := by
  rw [serve_reply,serve_reply]
  congr 1
  rcases determined with ⟨long,traps⟩ | ⟨long,computes⟩
  · obtain ⟨left,right,op⟩ := request_received long s.rdata
    obtain ⟨leftThere,rightThere,opThere⟩ := request_received long t.rdata
    rw [respond_trap (by rw [left,right,op]; exact traps),
      respond_trap (by rw [leftThere,rightThere,opThere]; exact traps)]
  · have requested : 9 ≤ datagram.bytes.length := by omega
    obtain ⟨left,right,op⟩ := request_received requested s.rdata
    obtain ⟨leftThere,rightThere,opThere⟩ := request_received requested t.rdata
    rw [respond_computes (by rw [left,right,op]; exact computes),
      respond_computes (by rw [leftThere,rightThere,opThere]; exact computes),
      left,right,op,leftThere,rightThere,opThere,fields_received long s.rdata t.rdata]

theorem stateless_exact (datagram : Datagram) :
    (∀ start first second s t, run serve start first = some s → run serve start second = some t →
      (serve s datagram).map reply = (serve t datagram).map reply) ↔ Determined datagram.bytes := by
  constructor
  · intro stateless
    by_contra undetermined
    obtain ⟨start⟩ : Nonempty State := ⟨⟨0,⟨List.replicate 20 0,rfl⟩,0⟩⟩
    obtain ⟨s,ranS,resultS,opS,errorS⟩ := serve_whole start 1 0
    obtain ⟨t,ranT,resultT,opT,errorT⟩ := serve_whole start 2 (-1)
    have same := stateless start [_] [_] s t (by rw [run_cons,ranS]; rfl) (by rw [run_cons,ranT]; rfl)
    refine undetermined_differs undetermined ?_ ?_ opS opT same
    · rw [resultS,resultT]; decide
    · rw [errorS,errorT]; decide
  · intro determined start first second s t _ _
    exact determined_same determined s t

theorem stale_result_sent :
    let start : State := ⟨0,⟨List.replicate 20 0,rfl⟩,0⟩
    let unknown : Datagram := ⟨9,be32 7 ++ be32 8 ++ [byteOf '?'] ++ List.replicate 11 0⟩
    (run serve start [⟨5,wholeRequest 1 0⟩,unknown]).map (fun s => (reply s).2.result) = some 1 ∧
    (run serve start [⟨5,wholeRequest 2 0⟩,unknown]).map (fun s => (reply s).2.result) = some 2 := by
  decide +kernel

end NetworkEx.UdpCalculator
