import NetworkEx.UdpCorrectness

namespace NetworkEx.TcpCalculator
open ByteStreams CText WireWords
open UdpCalculator hiding State serve reply answer answer_reply serve_reply
open UdpCorrectness hiding Correct correct_exact fresh

-- A short stored as it is, without htons, by the little-endian host.
def host16 (word : BitVec 16) : Bytes := [⟨word.extractLsb' 0 8⟩,⟨word.extractLsb' 8 8⟩]

-- ntohs of an int field takes the low half of the int, for this host the two
-- bytes that came first, and its result has no sign.
def ntohs (field : Bytes) : BitVec 32 := (word16 field).setWidth 32

-- struct cal_data is the UDP server's. cal_result is a short here.
structure State where
  rdata : Region
  calResult : BitVec 16

theorem result_inside : 12 + 4 ≤ sizeofCalData := by decide
theorem error_inside : 16 + 2 ≤ sizeofCalData := by decide

-- htonl widens the short with its sign; htons stores it once more, in error.
def answer (rdata : Region) (calResult : BitVec 16) : State :=
  let rdata := store rdata 12 (be32 (calResult.signExtend 32)) result_inside
  ⟨store rdata 16 (be16 calResult) error_inside,calResult⟩

-- main's switch; the assignments to cal_result keep the low half of the int.
def switch (rdata : Region) (calResult : BitVec 16) : State :=
  let leftNum := ntohs rdata.val
  let rightNum := ntohs (rdata.val.drop 4)
  let op := rdata.val.getD 8 0
  if op = byteOf '+' then answer rdata ((leftNum + rightNum).setWidth 16)
  else if op = byteOf '-' then answer rdata ((leftNum - rightNum).setWidth 16)
  else if op = byteOf '*' then answer rdata ((leftNum * rightNum).setWidth 16)
  else if op = byteOf '/' then
    if rightNum = 0 then answer (store rdata 16 (host16 2) error_inside) calResult
    else answer rdata ((leftNum.sdiv rightNum).setWidth 16)
  else answer (store rdata 16 (host16 1) error_inside) calResult

-- One turn of main's loop on what its one read brings, of any length.
def serve (s : State) (received : Bytes) : State :=
  switch (store (receive received s.rdata) 16 (host16 0) error_inside) s.calResult

def reply (s : State) : CalData := fields s.rdata.val

def upper (num : BitVec 32) : BitVec 16 := num.extractLsb' 16 16

def shortResult (left right : BitVec 16) (op : UInt8) (calResult : BitVec 16) : BitVec 16 :=
  if op = byteOf '+' then left + right
  else if op = byteOf '-' then left - right
  else if op = byteOf '*' then left * right
  else if op = byteOf '/' then if right = 0 then calResult else left / right
  else calResult

theorem widened_zero (half : BitVec 16) : half.setWidth 32 = 0 ↔ half = 0 := by
  constructor
  · intro zero
    have low := congrArg (BitVec.setWidth 16) zero
    rw [BitVec.setWidth_setWidth_of_le _ (by decide)] at low
    simpa using low
  · intro zero
    rw [zero]
    rfl

theorem widened_sub (left right : BitVec 16) : (left.setWidth 32 - right.setWidth 32).setWidth 16 = left - right := by
  rw [BitVec.sub_eq_add_neg,BitVec.setWidth_add _ _ (by decide),BitVec.setWidth_neg_of_le (by decide),
    BitVec.sub_eq_add_neg]
  simp

theorem widened_div (left right : BitVec 16) :
    ((left.setWidth 32).sdiv (right.setWidth 32)).setWidth 16 = left / right := by
  have nonnegative : ∀ half : BitVec 16, (half.setWidth 32).msb = false := by
    intro half
    rw [BitVec.msb_setWidth,BitVec.getLsbD_of_ge _ _ (by decide)]
    rfl
  rw [BitVec.sdiv_eq,nonnegative,nonnegative]
  apply BitVec.eq_of_toNat_eq
  simp only [BitVec.toNat_setWidth,BitVec.toNat_udiv,BitVec.udiv_eq]
  have quotient : left.toNat / right.toNat < 2 ^ 16 := Nat.lt_of_le_of_lt (Nat.div_le_self _ _) left.isLt
  have widen : ∀ n, n < 2 ^ 16 → n % 2 ^ 32 = n := fun n short => Nat.mod_eq_of_lt (by omega)
  rw [widen _ left.isLt,widen _ right.isLt,Nat.mod_eq_of_lt quotient]

theorem ntohs_upper (field : Bytes) : ntohs field = (upper (word32 field)).setWidth 32 := by
  rw [ntohs,word16_upper]
  rfl

theorem answer_reply (rdata : Region) (calResult : BitVec 16) :
    reply (answer rdata calResult) =
      {fields rdata.val with result := calResult.signExtend 32,error := calResult} := by
  have long := (store rdata 12 (be32 (calResult.signExtend 32)) result_inside).property
  simp only [answer,reply,store] at long ⊢
  rw [fields_error long,fields_result rdata.property]

theorem store_error (rdata : Region) (word : BitVec 16) :
    ∃ error, fields (store rdata 16 (host16 word) error_inside).val =
      {fields rdata.val with error := error} := by
  have swapped : host16 word = be16 (word16 (host16 word)) := (be16_word16 (host16 word)).symm
  have stored := fields_error rdata.property (word16 (host16 word))
  rw [← swapped] at stored
  exact ⟨_,stored⟩

-- Whatever error was set to on the way, the last store sends cal_result there.
theorem switch_reply (rdata : Region) (calResult : BitVec 16) :
    let request := fields rdata.val
    let result := shortResult (upper request.leftNum) (upper request.rightNum) request.op calResult
    reply (switch rdata calResult) = {request with result := result.signExtend 32,error := result} := by
  have failed : ∀ word, reply (answer (store rdata 16 (host16 word) error_inside) calResult) =
      {fields rdata.val with result := calResult.signExtend 32,error := calResult} := by
    intro word
    obtain ⟨error,stored⟩ := store_error rdata word
    rw [answer_reply,stored]
  have left : word32 rdata.val = (fields rdata.val).leftNum := rfl
  have right : word32 (rdata.val.drop 4) = (fields rdata.val).rightNum := rfl
  have op : rdata.val.getD 8 0 = (fields rdata.val).op := rfl
  simp only [switch,shortResult,ntohs_upper,left,right,op,widened_zero]
  split_ifs
  · rw [answer_reply,BitVec.setWidth_add _ _ (by decide)]
    simp
  · rw [answer_reply,widened_sub]
  · rw [answer_reply,BitVec.setWidth_mul _ _ (by decide)]
    simp
  · exact failed 2
  · rw [answer_reply,widened_div]
  · exact failed 1

-- The struct as the read leaves it: what came, over what was there before.
def held (s : State) (received : Bytes) : CalData := fields (receive received s.rdata).val

theorem serve_reply (s : State) (received : Bytes) :
    let request := held s received
    let result := shortResult (upper request.leftNum) (upper request.rightNum) request.op s.calResult
    reply (serve s received) = {request with result := result.signExtend 32,error := result} := by
  obtain ⟨error,cleared⟩ := store_error (receive received s.rdata) 0
  have switched := switch_reply (store (receive received s.rdata) 16 (host16 0) error_inside) s.calResult
  simp only [cleared] at switched
  exact switched

structure Correct (q : Question) (answer : CalData) : Prop where
  computed : ∀ value, exactResult q.leftNum.toInt q.rightNum.toInt q.op = some value →
    answer.result = BitVec.ofInt 32 value ∧ answer.error = 0
  divisor : q.op = byteOf '/' → q.rightNum = 0 → answer.error = 2
  unknown : ¬ Known q.op → answer.error = 1

-- The halves held, or where the operator makes nothing of them the last
-- cal_result, come to `code`.
def Yields (request : CalData) (calResult code : BitVec 16) : Prop :=
  if request.op = byteOf '+' then upper request.leftNum + upper request.rightNum = code
  else if request.op = byteOf '-' then upper request.leftNum - upper request.rightNum = code
  else if request.op = byteOf '*' then upper request.leftNum * upper request.rightNum = code
  else if request.op = byteOf '/' ∧ upper request.rightNum ≠ 0 then
    upper request.leftNum / upper request.rightNum = code
  else calResult = code

-- A short read leaves another request in memory than the one asked.
def Coincides (q : Question) (request : CalData) (calResult : BitVec 16) : Prop :=
  if ¬ Known q.op then Yields request calResult 1
  else if q.op = byteOf '/' ∧ q.rightNum = 0 then Yields request calResult 2
  else computed q.leftNum q.rightNum q.op = 0 ∧ Yields request calResult 0

-- For a question read whole: nearly nothing but results that are 0.
def Survives (q : Question) (calResult : BitVec 16) : Prop :=
  if q.op = byteOf '+' then q.leftNum + q.rightNum = 0 ∧ q.leftNum.setWidth 16 = 0
  else if q.op = byteOf '-' then q.leftNum = q.rightNum
  else if q.op = byteOf '*' then q.leftNum * q.rightNum = 0 ∧ upper q.leftNum * upper q.rightNum = 0
  else if q.op = byteOf '/' then
    if q.rightNum = 0 then calResult = 2
    else q.leftNum.sdiv q.rightNum = 0 ∧
      if upper q.rightNum = 0 then calResult = 0 else upper q.leftNum < upper q.rightNum
  else calResult = 1

theorem yields_short (request : CalData) (calResult code : BitVec 16) :
    Yields request calResult code ↔
      shortResult (upper request.leftNum) (upper request.rightNum) request.op calResult = code := by
  simp only [Yields,shortResult]
  split_ifs with plus minus times divides op zero op zero <;> simp_all

theorem signExtend_zero (result : BitVec 16) : result.signExtend 32 = 0 ↔ result = 0 := by
  constructor
  · intro zero
    have low := congrArg BitVec.toInt zero
    rw [BitVec.toInt_signExtend_of_le (by decide)] at low
    exact BitVec.eq_of_toInt_eq low
  · intro zero
    rw [zero]
    decide

theorem reply_correct (s : State) (received : Bytes) (q : Question) :
    Correct q (reply (serve s received)) ↔ Coincides q (held s received) s.calResult := by
  rw [serve_reply]
  simp only [Coincides,yields_short]
  generalize shortResult _ _ _ _ = result
  have defined := exactResult_defined q
  by_cases known : Known q.op
  · by_cases zero : q.op = byteOf '/' ∧ q.rightNum = 0
    · rw [if_neg (not_not_intro known),if_pos zero]
      constructor
      · intro correct
        exact correct.divisor zero.1 zero.2
      · intro two
        refine ⟨?_,fun _ _ => two,fun unknown => absurd known unknown⟩
        intro value found
        exact absurd zero (defined.mp ⟨value,found⟩).2
    · obtain ⟨value,found⟩ := defined.mpr ⟨known,zero⟩
      have exact_ := computed_exactResult found
      rw [if_neg (not_not_intro known),if_neg zero,exact_]
      constructor
      · intro correct
        obtain ⟨same,noError⟩ := correct.computed value found
        exact ⟨by rw [← same]; exact (signExtend_zero result).mpr noError,noError⟩
      · intro ⟨vanishes,noError⟩
        refine ⟨?_,fun op right => absurd ⟨op,right⟩ zero,fun unknown => absurd known unknown⟩
        intro other again
        rw [found] at again
        cases again
        exact ⟨by rw [vanishes]; exact (signExtend_zero result).mpr noError,noError⟩
  · rw [if_pos known]
    constructor
    · intro correct
      exact correct.unknown known
    · intro one
      refine ⟨?_,fun op _ => absurd (.inr (.inr (.inr op))) known,fun _ => one⟩
      intro value found
      exact absurd (defined.mp ⟨value,found⟩).1 known

theorem held_whole (s : State) (q : Question) (long : 9 ≤ n) :
    (held s (q.encode.take n)).leftNum = q.leftNum ∧ (held s (q.encode.take n)).rightNum = q.rightNum ∧
      (held s (q.encode.take n)).op = q.op := by
  have length : 9 ≤ (q.encode.take n).length := by
    rw [List.length_take,encode_length]
    exact Nat.le_min.mpr ⟨long,by decide⟩
  obtain ⟨left,right,op⟩ := request_received length s.rdata
  have leftWhole : word32 q.encode = q.leftNum := congrArg CalData.leftNum (fields_encode q)
  have rightWhole : word32 (q.encode.drop 4) = q.rightNum := congrArg CalData.rightNum (fields_encode q)
  have leftSent : word32 (q.encode.take n) = q.leftNum := by
    rw [← leftWhole]
    apply word32_congr
    rw [List.take_take,Nat.min_eq_left (by omega)]
  have rightSent : word32 ((q.encode.take n).drop 4) = q.rightNum := by
    rw [← rightWhole]
    apply word32_congr
    rw [List.drop_take,List.take_take,Nat.min_eq_left (by omega)]
  have opSent : (q.encode.take n).getD 8 0 = q.op := by
    rw [List.getD_eq_getElem?_getD,List.getElem?_take_of_lt (by omega)]
    rfl
  exact ⟨left.trans leftSent,right.trans rightSent,op.trans opSent⟩

-- Sums that wrap to 0 carry out of the lower halves, unless these are 0.
theorem sum_upper (left right : BitVec 32) (zero : left + right = 0) :
    upper left + upper right = 0 ↔ left.setWidth 16 = 0 := by
  have wrapped := congrArg BitVec.toNat zero
  rw [← BitVec.toNat_inj,← BitVec.toNat_inj,upper,upper]
  simp only [BitVec.toNat_add,BitVec.extractLsb'_toNat,Nat.shiftRight_eq_div_pow,BitVec.toNat_setWidth] at wrapped ⊢
  have leftBound := left.isLt
  have rightBound := right.isLt
  show (_ % _ + _ % _) % _ = 0 ↔ _ = 0
  replace wrapped : (left.toNat + right.toNat) % 2 ^ 32 = 0 := wrapped
  omega

theorem quotient_zero {left right : BitVec 16} (nonzero : right ≠ 0) : left / right = 0 ↔ left < right := by
  have divisor : right.toNat ≠ 0 := fun zero => nonzero (BitVec.eq_of_toNat_eq zero)
  rw [← BitVec.toNat_inj,BitVec.toNat_udiv,BitVec.lt_def]
  show _ = 0 ↔ _
  rw [Nat.div_eq_zero_iff]
  exact or_iff_right divisor

theorem difference_zero (left right : BitVec w) : left - right = 0 ↔ left = right := by
  rw [BitVec.sub_eq_iff_eq_add]
  exact Iff.of_eq (congrArg (left = ·) (BitVec.zero_add right))

theorem coincides_whole (q : Question) (request : CalData) (calResult : BitVec 16) (left : request.leftNum = q.leftNum)
    (right : request.rightNum = q.rightNum) (op : request.op = q.op) :
    Coincides q request calResult ↔ Survives q calResult := by
  simp only [Coincides,Survives,Yields,computed,left,right,op]
  by_cases known : Known q.op
  · rw [if_neg (not_not_intro known)]
    by_cases divides : q.op = byteOf '/'
    · simp only [slash_apart,divides,true_and,if_true,if_false]
      by_cases zero : q.rightNum = 0
      · have upperZero : upper 0 = 0 := rfl
        simp only [zero,upperZero,ne_eq,not_true,if_true,if_false]
      · by_cases upperZero : upper q.rightNum = 0
        · simp only [zero,upperZero,ne_eq,not_true,if_true,if_false]
        · simp only [zero,upperZero,ne_eq,not_false_eq_true,if_true,if_false,quotient_zero upperZero]
    · simp only [divides,false_and,if_false]
      rcases known with plus | minus | times | op
      · simp only [plus,if_true]
        exact and_congr_right (sum_upper _ _)
      · have other : byteOf '-' ≠ byteOf '+' := by decide
        simp only [minus,other,if_true,if_false,difference_zero]
        constructor
        · intro both
          exact both.1
        · intro same
          exact ⟨same,congrArg upper same⟩
      · have other : byteOf '*' ≠ byteOf '+' ∧ byteOf '*' ≠ byteOf '-' := by decide
        simp only [times,other,if_true,if_false]
      · exact absurd op divides
  · rw [if_pos known]
    simp only [Known,not_or] at known
    obtain ⟨plus,minus,times,divides⟩ := known
    simp only [plus,minus,times,divides,false_and,if_false]

def fresh : State := ⟨UdpCorrectness.fresh.rdata,0⟩

-- From every state, and however much of the question the one read brings.
theorem tcp_correct_exact (s : State) (q : Question) (n : Nat) :
    Correct q (reply (serve s (q.encode.take n))) ↔
      if 9 ≤ n then Survives q s.calResult else Coincides q (held s (q.encode.take n)) s.calResult := by
  rw [reply_correct]
  split_ifs with long
  · obtain ⟨left,right,op⟩ := held_whole s q long
    exact coincides_whole q _ _ left right op
  · exact Iff.rfl

theorem sums_answered_wrong :
    (reply (serve fresh (Question.encode ⟨1,byteOf '+',2⟩))).result = 0 ∧
    (reply (serve fresh (Question.encode ⟨65536,byteOf '+',65536⟩))).error = 2 ∧
    (∀ q : Question, q = ⟨1,byteOf '+',2⟩ ∨ q = ⟨65536,byteOf '+',65536⟩ →
      ¬ Correct q (reply (serve fresh q.encode))) := by
  have sum : (reply (serve fresh (Question.encode ⟨1,byteOf '+',2⟩))).result = 0 := by decide
  have failed : (reply (serve fresh (Question.encode ⟨65536,byteOf '+',65536⟩))).error = 2 := by decide
  refine ⟨sum,failed,?_⟩
  rintro q (rfl | rfl) correct
  · have right := (correct.computed 3 (by decide)).1
    rw [sum] at right
    exact absurd right (by decide)
  · have right := (correct.computed 131072 (by decide)).2
    rw [failed] at right
    exact absurd right (by decide)

end NetworkEx.TcpCalculator
