import NetworkEx.UdpCalculator

namespace NetworkEx.UdpCorrectness
open ByteStreams CText WireWords UdpCalculator

structure Question where
  leftNum : BitVec 32
  op : UInt8
  rightNum : BitVec 32
  deriving DecidableEq

-- The client's memset, both htonl and the operator; result and error stay 0.
def Question.encode (q : Question) : Bytes :=
  be32 q.leftNum ++ (be32 q.rightNum ++ ([q.op,0,0,0] ++ (be32 0 ++ [0,0,0,0])))

-- What the four operations are on integers, where they are anything.
def exactResult (leftNum rightNum : Int) (op : UInt8) : Option Int :=
  if op = byteOf '+' then some (leftNum + rightNum)
  else if op = byteOf '-' then some (leftNum - rightNum)
  else if op = byteOf '*' then some (leftNum * rightNum)
  else if op = byteOf '/' ∧ rightNum ≠ 0 then some (leftNum.tdiv rightNum)
  else none

def Known (op : UInt8) : Prop := op = byteOf '+' ∨ op = byteOf '-' ∨ op = byteOf '*' ∨ op = byteOf '/'

instance (op : UInt8) : Decidable (Known op) := inferInstanceAs (Decidable (_ ∨ _ ∨ _ ∨ _))

structure Correct (q : Question) (answer : CalData) : Prop where
  computed : ∀ value, exactResult q.leftNum.toInt q.rightNum.toInt q.op = some value →
    answer.result = BitVec.ofInt 32 value ∧ answer.error = 0
  divisor : q.op = byteOf '/' → q.rightNum = 0 → answer.error = 2
  unknown : ¬ Known q.op → answer.error ≠ 0

variable {q : Question} {value : Int}

theorem encode_length (q : Question) : q.encode.length = sizeofCalData := rfl

theorem fields_encode (q : Question) : fields q.encode = ⟨q.leftNum,q.rightNum,q.op,0,0⟩ := by
  have left : word32 q.encode = q.leftNum := word32_be32 _ _
  have right : word32 (q.encode.drop 4) = q.rightNum := word32_be32 _ _
  have result : word32 (q.encode.drop 12) = 0 := word32_be32 0 _
  have error : word16 (q.encode.drop 16) = 0 := word16_be16 0 [0,0]
  rw [fields,left,right,result,error]
  rfl

theorem receive_encode (q : Question) (rdata : Region) : receive q.encode rdata = ⟨q.encode,encode_length q⟩ :=
  Subtype.ext (overlay_whole (by rw [rdata.property]; exact Nat.le_refl _))

theorem serve_encode (s : State) (cliaddr : Nat) (q : Question) :
    (serve s ⟨cliaddr,q.encode⟩).map reply =
      (respond ⟨q.leftNum,q.rightNum,q.op,0,0⟩ s.calResult).map fun data => (cliaddr,data) := by
  rw [serve_reply,receive_encode,fields_encode]

theorem exactResult_defined (q : Question) :
    (∃ value, exactResult q.leftNum.toInt q.rightNum.toInt q.op = some value) ↔
      Known q.op ∧ ¬ (q.op = byteOf '/' ∧ q.rightNum = 0) := by
  have apart : byteOf '+' ≠ byteOf '/' ∧ byteOf '-' ≠ byteOf '/' ∧ byteOf '*' ≠ byteOf '/' := by decide
  have zero : q.rightNum = 0 ↔ q.rightNum.toInt = 0 := by rw [← BitVec.toInt_inj]; rfl
  unfold exactResult
  split_ifs with plus minus times divides
  · simp [Known,plus,apart]
  · simp [Known,minus,apart]
  · simp [Known,times,apart]
  · have nonzero : q.rightNum ≠ 0 := zero.not.mpr divides.2
    exact ⟨fun _ => ⟨.inr (.inr (.inr divides.1)),fun both => nonzero both.2⟩,fun _ => ⟨_,rfl⟩⟩
  · simp_all [Known]

theorem computed_exactResult (found : exactResult q.leftNum.toInt q.rightNum.toInt q.op = some value) :
    computed q.leftNum q.rightNum q.op = BitVec.ofInt 32 value := by
  unfold exactResult at found
  unfold computed
  split_ifs at found ⊢ with plus minus times divides
  · cases found
    rw [BitVec.ofInt_add,BitVec.ofInt_toInt,BitVec.ofInt_toInt]
  · cases found
    apply BitVec.eq_of_toInt_eq
    rw [BitVec.toInt_sub,BitVec.toInt_ofInt]
  · cases found
    apply BitVec.eq_of_toInt_eq
    rw [BitVec.toInt_mul,BitVec.toInt_ofInt]
  · cases found
    apply BitVec.eq_of_toInt_eq
    rw [BitVec.toInt_sdiv,BitVec.toInt_ofInt]

theorem exactResult_computes (found : exactResult q.leftNum.toInt q.rightNum.toInt q.op = some value)
    (fits : ¬ Traps q.leftNum q.rightNum q.op) : Computes q.leftNum q.rightNum q.op := by
  unfold exactResult at found
  split_ifs at found with plus minus times divides
  · exact .inl plus
  · exact .inr (.inl minus)
  · exact .inr (.inr (.inl times))
  · refine .inr (.inr (.inr ⟨divides.1,?_,fun traps => fits ⟨divides.1,traps⟩⟩))
    intro zero
    exact divides.2 (by rw [zero]; rfl)

theorem respond_zero {request : CalData} (op : request.op = byteOf '/') (zero : request.rightNum = 0) (calResult : BitVec 32) :
    respond request calResult = some {request with result := calResult,error := 2} := by
  simp only [respond,op,zero,slash_apart,if_true,if_false]

theorem respond_unknown {request : CalData} (unknown : ¬ Known request.op) (calResult : BitVec 32) :
    respond request calResult = some {request with result := calResult} := by
  simp only [Known,not_or] at unknown
  obtain ⟨plus,minus,times,divides⟩ := unknown
  simp only [respond,plus,minus,times,divides,if_false]

-- From every state the answer is right exactly for the four operators, the one
-- quotient that traps apart.
theorem correct_exact (s : State) (cliaddr : Nat) (q : Question) :
    (∃ next, serve s ⟨cliaddr,q.encode⟩ = some next ∧ (reply next).1 = cliaddr ∧ Correct q (reply next).2) ↔
      Known q.op ∧ ¬ Traps q.leftNum q.rightNum q.op := by
  have served := serve_encode s cliaddr q
  have parts : ∀ data, respond ⟨q.leftNum,q.rightNum,q.op,0,0⟩ s.calResult = some data →
      ∃ next, serve s ⟨cliaddr,q.encode⟩ = some next ∧ reply next = (cliaddr,data) := by
    intro data responded
    rw [responded,Option.map_some] at served
    exact Option.map_eq_some_iff.mp served
  constructor
  · intro ⟨next,ran,_,correct⟩
    rw [ran,Option.map_some] at served
    constructor
    · apply Classical.byContradiction
      intro unknown
      rw [respond_unknown unknown,Option.map_some] at served
      have same := Option.some.inj served
      exact correct.unknown unknown (by rw [same])
    · intro traps
      rw [respond_trap traps] at served
      cases served
  · intro ⟨known,fits⟩
    by_cases divisor : q.op = byteOf '/' ∧ q.rightNum = 0
    · obtain ⟨next,ran,same⟩ := parts _ (respond_zero divisor.1 divisor.2 s.calResult)
      refine ⟨next,ran,by rw [same],?_⟩
      rw [same]
      refine ⟨?_,fun _ _ => rfl,fun unknown => absurd known unknown⟩
      intro value found
      exact absurd divisor ((exactResult_defined q).mp ⟨value,found⟩).2
    · obtain ⟨value,found⟩ := (exactResult_defined q).mpr ⟨known,divisor⟩
      have computes := exactResult_computes found fits
      obtain ⟨next,ran,same⟩ := parts _ (respond_computes computes s.calResult)
      refine ⟨next,ran,by rw [same],?_⟩
      rw [same]
      refine ⟨?_,fun divides zero => absurd ⟨divides,zero⟩ divisor,fun unknown => absurd known unknown⟩
      intro value found
      exact ⟨computed_exactResult found,rfl⟩

def fresh : State := ⟨0,⟨List.replicate 20 0,rfl⟩,0⟩

theorem unknown_and_overflow_wrong :
    (serve fresh ⟨5,Question.encode ⟨7,byteOf '?',8⟩⟩).map (fun next => (reply next).2.error) = some 0 ∧
    serve fresh ⟨5,Question.encode ⟨BitVec.intMin 32,byteOf '/',-1⟩⟩ = none ∧
    (∀ q : Question, q = ⟨7,byteOf '?',8⟩ ∨ q = ⟨BitVec.intMin 32,byteOf '/',-1⟩ →
      ¬ ∃ next, serve fresh ⟨5,q.encode⟩ = some next ∧ (reply next).1 = 5 ∧ Correct q (reply next).2) := by
  have silent : (serve fresh ⟨5,Question.encode ⟨7,byteOf '?',8⟩⟩).map (fun next => (reply next).2.error) = some 0 := by
    decide
  have trapped : serve fresh ⟨5,Question.encode ⟨BitVec.intMin 32,byteOf '/',-1⟩⟩ = none := by decide
  refine ⟨silent,trapped,?_⟩
  rintro q (rfl | rfl) ⟨next,ran,_,correct⟩
  · rw [ran,Option.map_some] at silent
    exact correct.unknown (by decide) (Option.some.inj silent)
  · rw [trapped] at ran
    cases ran

end NetworkEx.UdpCorrectness
