import NetworkEx.ScanFormat
import NetworkEx.UdpCorrectness

namespace NetworkEx.CalculatorInput
open ByteStreams CText ScanFormat UdpCorrectness

def MAXLEN : Nat := 256

structure State where
  msg : Bytes
  leftNum : BitVec 32
  op : Bytes
  rightNum : BitVec 32

-- fgets(msg, MAXLEN-1, stdin); at the end of the input msg stays as it is.
def fgets (input : Option (Piece (MAXLEN - 2))) (msg : Bytes) : Bytes :=
  match input with
  | some line => overlay (line.val ++ [0]) msg
  | none => msg

def notDigit (b : UInt8) : Bool := !isDigit b

-- "%d%[^0-9]%d" into left_num, op[2] and right_num.
def format : List Directive := [.int,.set notDigit 2,.int]

inductive Turn where
  | undefined
  | quits
  | asks (question : Question) (next : State)

-- One turn of main's loop up to sendto; sscanf's result is not looked at.
def turn (s : State) (input : Option (Piece (MAXLEN - 2))) : Turn :=
  let msg := fgets input s.msg
  match cstring msg with
  | none => .undefined
  | some text =>
    if text.take 5 = ascii "quit\n" then .quits
    else match scan format text with
      | none => .undefined
      | some out =>
        let leftNum := storedNumber out.items 0 s.leftNum
        let op := storedText out.items 1 s.op
        let rightNum := storedNumber out.items 2 s.rightNum
        .asks ⟨leftNum,op.headD 0,rightNum⟩ ⟨msg,leftNum,op,rightNum⟩

-- The request of a turn; none where the turn does what nobody can tell.
def Turn.request : Turn → Option (Option Question)
  | .undefined => none
  | .quits => some none
  | .asks question _ => some (some question)

-- The line of an integer, an operator and an integer.
def questionLine (q : Question) : Bytes := decimal q.leftNum.toInt ++ q.op :: (decimal q.rightNum.toInt ++ [10])

-- What is sent for the line is the same whatever earlier lines were, and is
-- the question that the line puts.
def Own (line : Piece (MAXLEN - 2)) : Prop :=
  ∃ sent, (∀ s, (turn s (some line)).request = some sent) ∧
    ∀ q, Known q.op → line.val = questionLine q → sent = some q

def text (line : Piece (MAXLEN - 2)) : Bytes := untilNul line.val

def Quits (line : Piece (MAXLEN - 2)) : Prop := (text line).take 5 = ascii "quit\n"

instance (line : Piece (MAXLEN - 2)) : Decidable (Quits line) := inferInstanceAs (Decidable (_ = _))

-- A number, one byte that is no digit, digits at once behind it.
structure Plain (line : Bytes) (left : Numeral) (op : UInt8) (right : Numeral) (tail : Bytes) : Prop where
  parts : line = left.text ++ op :: (right.text ++ tail)
  operator : isDigit op = false
  bare : right.white = [] ∧ right.sign = []
  behind : ∀ b, tail.head? = some b → isDigit b = false

theorem turn_request (s : State) (line : Piece (MAXLEN - 2)) :
    (turn s (some line)).request =
      if Quits line then some none
      else (scan format (text line)).map fun out =>
        some (Question.mk (storedNumber out.items 0 s.leftNum) ((storedText out.items 1 s.op).headD 0)
          (storedNumber out.items 2 s.rightNum)) := by
  have string : cstring (fgets (some line) s.msg) = some (text line) := cstring_stored line.val s.msg
  unfold turn
  simp only [string]
  by_cases quits : Quits line
  · rw [if_pos quits]
    have begins : (text line).take 5 = ascii "quit\n" := quits
    simp only [begins,if_true]
    rfl
  · rw [if_neg quits]
    have begins : ¬ (text line).take 5 = ascii "quit\n" := quits
    simp only [begins,if_false]
    cases scan format (text line) <;> rfl

theorem not_behind {rest : Bytes} (digits : ∀ b, rest.head? = some b → isDigit b = true) :
    ∀ b, rest.head? = some b → notDigit b = false := by
  intro b first
  rw [notDigit,digits b first]
  rfl

theorem scan_wide (left : Numeral) (wide : 2 ≤ ops.length) (operators : ∀ b ∈ ops, isDigit b = false)
    (digits : ∀ b, rest.head? = some b → isDigit b = true) : scan format (left.text ++ (ops ++ rest)) = none := by
  have first : ∀ b, (ops ++ rest).head? = some b → isDigit b = false := by
    intro b here
    cases ops with
    | nil => cases wide
    | cons c more => cases here; exact operators b List.mem_cons_self
  have run : Maximal notDigit (ops ++ rest) ops rest :=
    ⟨rfl,fun b member => by rw [notDigit,operators b member]; rfl,not_behind digits⟩
  have present : ops ≠ [] := by rintro rfl; cases wide
  rw [format,scan_int (convertInt_numeral left first),scan,convert_set run,if_neg present,if_neg (Nat.not_lt.mpr wide)]
  rfl

theorem Plain.second (plain : Plain line left op right tail) :
    ∀ b, (right.text ++ tail).head? = some b → isDigit b = true := by
  intro b first
  obtain ⟨d,digits,shape⟩ := List.exists_cons_of_ne_nil right.present
  have starts : right.text = d :: digits := by rw [Numeral.text,plain.bare.1,plain.bare.2,shape]; rfl
  rw [starts] at first
  cases first
  exact right.decimals b (by rw [shape]; exact List.mem_cons_self)

theorem scan_plain (plain : Plain line left op right tail) :
    ∃ atEnd, scan format line = some ⟨[.number left.value,.text [op],.number right.value],tail,true,atEnd⟩ := by
  have run : Maximal notDigit (op :: (right.text ++ tail)) [op] (right.text ++ tail) := by
    refine ⟨rfl,?_,not_behind plain.second⟩
    intro b member
    rw [List.mem_singleton.mp member,notDigit,plain.operator]
    rfl
  have first : ∀ b, (op :: (right.text ++ tail)).head? = some b → isDigit b = false := by
    intro b here
    cases here
    exact plain.operator
  rw [plain.parts,format,scan_int (convertInt_numeral left first),scan_set run (by simp) (by simp),
    scan_int (convertInt_numeral right plain.behind),scan]
  exact ⟨_,rfl⟩

theorem numeral_bare (numeral : Numeral) (stops : ∀ b, (numeral.text ++ rest).head? = some b → isDigit b = true) :
    numeral.white = [] ∧ numeral.sign = [] := by
  have first : numeral.white = [] := by
    cases white : numeral.white with
    | nil => rfl
    | cons b more =>
      have space := numeral.spaces b (by rw [white]; exact List.mem_cons_self)
      have digit := stops b (by simp [Numeral.text,white])
      rw [(digit_apart b digit).2] at space
      cases space
  refine ⟨first,?_⟩
  rcases numeral.signed with none | plus | minus
  · exact none
  · have digit := stops 43 (by simp [Numeral.text,first,plus])
    cases digit
  · have digit := stops 45 (by simp [Numeral.text,first,minus])
    cases digit

theorem plain_of_scan (scanned : scan format line = some out) (full : 2 < out.items.length) :
    ∃ left op right tail, Plain line left op right tail := by
  rw [format] at scanned
  cases read : convertInt line with
  | undefined => rw [scan,Directive.convert,read] at scanned; cases scanned
  | fails rest => rw [scan,Directive.convert,read] at scanned; cases scanned; cases full
  | gives items rest =>
    obtain ⟨left,rfl,rfl,stops⟩ := convertInt_gives read
    obtain ⟨ops,later,run⟩ : ∃ ops later, Maximal notDigit rest ops later := ⟨_,_,maximal_cut _ rest⟩
    rw [scan_int read,Option.map_eq_some_iff] at scanned
    obtain ⟨mid,scanned,rfl⟩ := scanned
    have digits : ∀ b, later.head? = some b → isDigit b = true := by
      intro b first
      simpa [notDigit] using run.behind b first
    by_cases none : ops = []
    · rw [scan,convert_set run,if_pos none] at scanned
      cases scanned
      simp at full
    by_cases fits : ops.length < 2
    · obtain ⟨op,rfl⟩ : ∃ op, ops = [op] := by
        rw [← List.length_eq_one_iff]
        have some := List.length_pos_of_ne_nil none
        omega
      rw [scan_set run none fits,Option.map_eq_some_iff] at scanned
      obtain ⟨last,scanned,rfl⟩ := scanned
      cases again : convertInt later with
      | undefined => rw [scan,Directive.convert,again] at scanned; cases scanned
      | fails rest => rw [scan,Directive.convert,again] at scanned; cases scanned; simp at full
      | gives items tail =>
        obtain ⟨right,rfl,rfl,behind⟩ := convertInt_gives again
        have operator : isDigit op = false := by simpa [notDigit] using run.inside op List.mem_cons_self
        exact ⟨left,op,right,tail,by rw [run.cut]; rfl,operator,numeral_bare right digits,behind⟩
    · rw [scan,convert_set run,if_neg none,if_neg fits] at scanned
      cases scanned

theorem known_operator (known : Known op) : isDigit op = false ∧ op ≠ 0 := by
  rcases known with rfl | rfl | rfl | rfl <;> decide

theorem questionLine_plain (known : Known q.op) (positive : 0 ≤ q.rightNum.toInt) :
    Plain (questionLine q) (decimalNumeral q.leftNum) q.op (decimalNumeral q.rightNum) [10] := by
  refine ⟨by simp [questionLine,decimalNumeral_text],(known_operator known).1,⟨rfl,?_⟩,?_⟩
  · exact if_neg (Int.not_lt.mpr positive)
  · intro b first
    cases first
    rfl

theorem questionLine_wide (known : Known q.op) (negative : q.rightNum.toInt < 0) : scan format (questionLine q) = none := by
  have minus : minusOf q.rightNum.toInt = [45] := if_pos negative
  have parts : questionLine q =
      (decimalNumeral q.leftNum).text ++ ([q.op,45] ++ (decimalNat q.rightNum.toInt.natAbs ++ [10])) := by
    rw [questionLine,decimalNumeral_text,decimal_parts q.rightNum.toInt,minus]
    rfl
  rw [parts]
  have wide : 2 ≤ [q.op,45].length := Nat.le_refl 2
  apply scan_wide _ wide
  · intro b member
    rcases List.mem_cons.mp member with rfl | later
    · exact (known_operator known).1
    · rw [List.mem_singleton.mp later]
      rfl
  · intro b first
    obtain ⟨d,digits,shape⟩ := List.exists_cons_of_ne_nil (decimalNat_ne_nil q.rightNum.toInt.natAbs)
    rw [shape] at first
    cases first
    exact decimalNat_digits q.rightNum.toInt.natAbs _ (by rw [shape]; exact List.mem_cons_self)

theorem questionLine_text (known : Known q.op) (same : line.val = questionLine q) : text line = questionLine q := by
  have clean : 0 ∉ questionLine q := by
    simp [questionLine,decimal_clean,Ne.symm (known_operator known).2]
  rw [text,same,untilNul_clean clean]

theorem questionLine_asks (known : Known q.op) (same : line.val = questionLine q) : ¬ Quits line := by
  rw [Quits,questionLine_text known same,questionLine]
  intro quits
  cases shape : decimal q.leftNum.toInt with
  | nil => rw [decimal_parts] at shape; exact decimalNat_ne_nil _ (List.append_eq_nil_iff.mp shape).2
  | cons b more =>
    rw [shape] at quits
    have first : b = 113 := (List.cons.inj quits).1
    subst first
    have member : 113 ∈ decimal q.leftNum.toInt := by rw [shape]; exact List.mem_cons_self
    exact decimal_free (by decide) (by decide) q.leftNum.toInt member

theorem request_plain (s : State) (asks : ¬ Quits line) (plain : Plain (text line) left op right tail) :
    (turn s (some line)).request = some (some ⟨left.value,op,right.value⟩) := by
  obtain ⟨atEnd,scanned⟩ := scan_plain plain
  rw [turn_request,if_neg asks,scanned]
  rfl

theorem plain_of_own (own : Own line) (asks : ¬ Quits line) : ∃ left op right tail, Plain (text line) left op right tail := by
  obtain ⟨sent,always,_⟩ := own
  have first := always ⟨[],0,[],0⟩
  have second := always ⟨[],0,[],1⟩
  rw [turn_request,if_neg asks] at first second
  obtain ⟨out,scanned,asked⟩ := Option.map_eq_some_iff.mp first
  rw [scanned,Option.map_some] at second
  apply plain_of_scan scanned
  by_contra short
  have stale : ∀ held, storedNumber out.items 2 held = held := by
    intro held
    rw [storedNumber,List.getElem?_eq_none (Nat.le_of_not_lt short)]
  have same := asked.trans (Option.some.inj second).symm
  rw [stale,stale] at same
  cases same

theorem plain_question (known : Known q.op) (plain : Plain (questionLine q) left op right tail) :
    Question.mk left.value op right.value = q := by
  obtain ⟨atEnd,scanned⟩ := scan_plain plain
  have nonnegative : 0 ≤ q.rightNum.toInt := by
    by_contra negative
    rw [questionLine_wide known (Int.not_le.mp negative)] at scanned
    cases scanned
  obtain ⟨ended,read⟩ := scan_plain (questionLine_plain known nonnegative)
  rw [scanned,decimalNumeral_value,decimalNumeral_value] at read
  simp only [Option.some.injEq,Outcome.mk.injEq,List.cons.injEq,Item.number.injEq,Item.text.injEq] at read
  obtain ⟨⟨leftSame,⟨opSame,_⟩,rightSame,_⟩,_⟩ := read
  rw [leftSame,opSame,rightSame]

theorem own_exact (line : Piece (MAXLEN - 2)) :
    Own line ↔ Quits line ∨ ∃ left op right tail, Plain (text line) left op right tail := by
  constructor
  · intro own
    by_cases quits : Quits line
    · exact .inl quits
    · exact .inr (plain_of_own own quits)
  · intro told
    by_cases quits : Quits line
    · refine ⟨none,?_,fun q known same => absurd quits (questionLine_asks known same)⟩
      intro s
      rw [turn_request,if_pos quits]
    · obtain ⟨left,op,right,tail,plain⟩ := told.resolve_left quits
      refine ⟨some ⟨left.value,op,right.value⟩,fun s => request_plain s quits plain,?_⟩
      intro q known same
      rw [questionLine_text known same] at plain
      rw [plain_question known plain]

theorem earlier_line_asked :
    questionLine ⟨3,byteOf '+',-4⟩ = ascii "3+-4\n" ∧
    (turn ⟨[],3,ascii "+\x00",4⟩ (some ⟨ascii "3+-4\n",by decide⟩)).request = none ∧
    (turn ⟨[],3,ascii "+\x00",4⟩ (some ⟨ascii "abc\n",by decide⟩)).request = some (some ⟨3,byteOf '+',4⟩) ∧
    ¬ Own ⟨ascii "3+-4\n",by decide⟩ ∧ ¬ Own ⟨ascii "abc\n",by decide⟩ := by
  refine ⟨by decide,by decide,by decide,?_,?_⟩
  · intro own
    obtain ⟨sent,always,_⟩ := own
    have undefined : (turn ⟨[],0,[],0⟩ (some ⟨ascii "3+-4\n",by decide⟩)).request = none := by decide
    rw [always] at undefined
    cases undefined
  · intro own
    obtain ⟨sent,always,_⟩ := own
    have first : (turn ⟨[],0,[],0⟩ (some ⟨ascii "abc\n",by decide⟩)).request = some (some ⟨0,0,0⟩) := by decide
    have second : (turn ⟨[],0,[],1⟩ (some ⟨ascii "abc\n",by decide⟩)).request = some (some ⟨0,0,1⟩) := by decide
    rw [always] at first second
    rw [first] at second
    cases second

end NetworkEx.CalculatorInput
