import Mathlib.Data.List.TakeWhile
import NetworkEx.CText

namespace NetworkEx.ScanFormat
open ByteStreams CText

structure Maximal (accepts : UInt8 → Bool) (text run rest : Bytes) : Prop where
  cut : text = run ++ rest
  inside : ∀ b ∈ run, accepts b = true
  behind : ∀ b, rest.head? = some b → accepts b = false

-- %[...] into an array, %d, a byte to be met as it is, and %*c.
inductive Directive where
  | set (accepts : UInt8 → Bool) (capacity : Nat)
  | int
  | literal (byte : UInt8)
  | skip

inductive Item where
  | text (bytes : Bytes)
  | number (value : BitVec 32)
  deriving DecidableEq

-- Undefined where the array has no room for the text and its NUL, or the
-- number is not an int.
inductive Conversion where
  | undefined
  | fails (rest : Bytes)
  | gives (items : List Item) (rest : Bytes)
  deriving DecidableEq

def isSpace (b : UInt8) : Bool := decide (b = 32 ∨ (9 ≤ b ∧ b ≤ 13))
def isSign (b : UInt8) : Bool := decide (b = 43 ∨ b = 45)

def magnitude (digits : Bytes) : Nat := Nat.ofDigitChars 10 (digits.map charOf) 0

def intValue (sign digits : Bytes) : Int := if sign = [45] then -(magnitude digits : Int) else magnitude digits

def IsInt (value : Int) : Prop := -2 ^ 31 ≤ value ∧ value < 2 ^ 31

instance (value : Int) : Decidable (IsInt value) := inferInstanceAs (Decidable (_ ∧ _))

def signOf (text : Bytes) : Bytes := (text.take 1).filter isSign

-- What %d reads may be given up on after its sign, which is then gone.
def convertInt (text : Bytes) : Conversion :=
  let body := text.dropWhile isSpace
  let sign := signOf body
  let digits := (body.drop sign.length).takeWhile isDigit
  let rest := (body.drop sign.length).dropWhile isDigit
  if digits = [] then .fails rest
  else if IsInt (intValue sign digits) then .gives [.number (BitVec.ofInt 32 (intValue sign digits))] rest
  else .undefined

def Directive.convert (text : Bytes) : Directive → Conversion
  | .set accepts capacity =>
    let run := text.takeWhile accepts
    if run = [] then .fails text
    else if run.length < capacity then .gives [.text run] (text.dropWhile accepts)
    else .undefined
  | .int => convertInt text
  | .literal byte => if text.head? = some byte then .gives [] (text.drop 1) else .fails text
  | .skip => if text = [] then .fails [] else .gives [] (text.drop 1)

-- A run is known to be over only at a byte behind it; the others need one byte.
def Directive.meetsEnd (text rest : Bytes) : Directive → Bool
  | .set _ _ => rest.isEmpty
  | .int => rest.isEmpty
  | .literal _ => text.isEmpty
  | .skip => text.isEmpty

structure Outcome where
  items : List Item
  rest : Bytes
  complete : Bool
  atEnd : Bool
  deriving DecidableEq

def scan : List Directive → Bytes → Option Outcome
  | [],text => some ⟨[],text,true,false⟩
  | directive :: format,text =>
    match directive.convert text with
    | .undefined => none
    | .fails rest => some ⟨[],rest,false,directive.meetsEnd text rest⟩
    | .gives items rest => (scan format rest).map fun later =>
      {later with items := items ++ later.items,atEnd := directive.meetsEnd text rest || later.atEnd}

-- A variable that got no item keeps what it holds; a text brings its NUL.
def storedNumber (items : List Item) (i : Nat) (held : BitVec 32) : BitVec 32 :=
  match items[i]? with
  | some (.number value) => value
  | _ => held

def storedText (items : List Item) (i : Nat) (held : Bytes) : Bytes :=
  match items[i]? with
  | some (.text bytes) => overlay (bytes ++ [0]) held
  | _ => held

structure Numeral where
  white : Bytes
  sign : Bytes
  digits : Bytes
  spaces : ∀ b ∈ white, isSpace b = true
  signed : sign = [] ∨ sign = [43] ∨ sign = [45]
  present : digits ≠ []
  decimals : ∀ b ∈ digits, isDigit b = true
  fits : IsInt (intValue sign digits)

def Numeral.text (numeral : Numeral) : Bytes := numeral.white ++ (numeral.sign ++ numeral.digits)
def Numeral.value (numeral : Numeral) : BitVec 32 := BitVec.ofInt 32 (intValue numeral.sign numeral.digits)

theorem maximal_cut (accepts : UInt8 → Bool) (text : Bytes) :
    Maximal accepts text (text.takeWhile accepts) (text.dropWhile accepts) := by
  refine ⟨List.takeWhile_append_dropWhile.symm,fun b member => List.mem_takeWhile_imp member,?_⟩
  intro b first
  have stops := List.head?_dropWhile_not accepts text
  rw [first] at stops
  simpa using stops

theorem Maximal.parts (maximal : Maximal accepts text run rest) :
    text.takeWhile accepts = run ∧ text.dropWhile accepts = rest := by
  obtain ⟨rfl,inside,behind⟩ := maximal
  rw [List.takeWhile_append_of_pos inside,List.dropWhile_append_of_pos inside]
  cases rest with
  | nil => exact ⟨List.append_nil run,rfl⟩
  | cons b rest =>
    have stops : accepts b = false := behind b rfl
    simp [stops]

theorem signOf_cases (text : Bytes) : signOf text = [] ∨ signOf text = [43] ∨ signOf text = [45] := by
  cases text with
  | nil => exact .inl rfl
  | cons b rest =>
    by_cases sign : b = 43 ∨ b = 45
    · rcases sign with rfl | rfl
      · exact .inr (.inl rfl)
      · exact .inr (.inr rfl)
    · simp [signOf,isSign,sign]

theorem signOf_rest (text : Bytes) : signOf text ++ text.drop (signOf text).length = text := by
  cases text with
  | nil => rfl
  | cons b rest => by_cases sign : isSign b <;> simp [signOf,sign]

theorem signOf_append (signed : sign = [] ∨ sign = [43] ∨ sign = [45])
    (behind : sign = [] → ∀ b, rest.head? = some b → isSign b = false) :
    signOf (sign ++ rest) = sign := by
  rcases signed with rfl | rfl | rfl
  · cases rest with
    | nil => rfl
    | cons b rest => simp [signOf,behind rfl b rfl]
  · rfl
  · rfl

theorem digit_apart : ∀ b, isDigit b = true → isSign b = false ∧ isSpace b = false := by
  intro b digit
  simp only [isDigit,decide_eq_true_eq,UInt8.le_iff_toNat_le] at digit
  simp only [isSign,isSpace,decide_eq_false_iff_not,← UInt8.toNat_inj,UInt8.le_iff_toNat_le]
  simp at digit ⊢
  omega

theorem sign_apart : isSpace 43 = false ∧ isSpace 45 = false ∧ isDigit 43 = false ∧ isDigit 45 = false := by decide

structure Cut (text white sign digits rest : Bytes) : Prop where
  parts : text = white ++ (sign ++ (digits ++ rest))
  spaces : ∀ b ∈ white, isSpace b = true
  signed : sign = [] ∨ sign = [43] ∨ sign = [45]
  decimals : ∀ b ∈ digits, isDigit b = true
  behind : ∀ b, rest.head? = some b → isDigit b = false
  unsigned : digits = [] → sign = [] → ∀ b, rest.head? = some b → isSpace b = false ∧ isSign b = false

theorem signOf_bare (bare : signOf (b :: rest) = []) : isSign b = false := by
  by_contra sign
  simp [signOf,sign] at bare

theorem exists_cut (text : Bytes) : ∃ white sign digits rest, Cut text white sign digits rest := by
  obtain ⟨white,body,spaces⟩ : ∃ white body, Maximal isSpace text white body := ⟨_,_,maximal_cut isSpace text⟩
  obtain ⟨digits,rest,run⟩ : ∃ digits rest, Maximal isDigit (body.drop (signOf body).length) digits rest :=
    ⟨_,_,maximal_cut isDigit _⟩
  refine ⟨white,signOf body,digits,rest,?_,spaces.inside,signOf_cases body,run.inside,run.behind,?_⟩
  · rw [← run.cut,signOf_rest]
    exact spaces.cut
  · intro none bare b first
    have whole : body = rest := by
      have cut := run.cut
      rwa [none,bare] at cut
    subst whole
    refine ⟨spaces.behind b first,?_⟩
    cases body with
    | nil => cases first
    | cons c rest =>
      cases first
      exact signOf_bare bare

theorem cut_body (cut : Cut text white sign digits rest) : text.dropWhile isSpace = sign ++ (digits ++ rest) := by
  refine (Maximal.parts ⟨cut.parts,cut.spaces,?_⟩).2
  intro b first
  rcases cut.signed with rfl | rfl | rfl
  · cases digits with
    | nil => exact (cut.unsigned rfl rfl b first).1
    | cons d more =>
      cases first
      exact (digit_apart b (cut.decimals b List.mem_cons_self)).2
  · cases first; exact sign_apart.1
  · cases first; exact sign_apart.2.1

theorem convertInt_cut (cut : Cut text white sign digits rest) :
    convertInt text = if digits = [] then .fails rest
      else if IsInt (intValue sign digits) then .gives [.number (BitVec.ofInt 32 (intValue sign digits))] rest
      else .undefined := by
  have signed : signOf (sign ++ (digits ++ rest)) = sign := by
    apply signOf_append cut.signed
    intro bare b first
    cases digits with
    | nil => exact (cut.unsigned rfl bare b first).2
    | cons d more =>
      cases first
      exact (digit_apart b (cut.decimals b List.mem_cons_self)).1
  have run : Maximal isDigit (digits ++ rest) digits rest := ⟨rfl,cut.decimals,cut.behind⟩
  simp only [convertInt,cut_body cut,signed,List.drop_left,run.parts]

theorem Numeral.cut (numeral : Numeral) (behind : ∀ b, rest.head? = some b → isDigit b = false) :
    Cut (numeral.text ++ rest) numeral.white numeral.sign numeral.digits rest :=
  ⟨by simp [Numeral.text],numeral.spaces,numeral.signed,numeral.decimals,behind,fun none => absurd none numeral.present⟩

theorem convertInt_numeral (numeral : Numeral) (behind : ∀ b, rest.head? = some b → isDigit b = false) :
    convertInt (numeral.text ++ rest) = .gives [.number numeral.value] rest := by
  rw [convertInt_cut (numeral.cut behind),if_neg numeral.present,if_pos numeral.fits]
  rfl

theorem convertInt_gives (converted : convertInt text = .gives items rest) :
    ∃ numeral : Numeral, text = numeral.text ++ rest ∧ items = [.number numeral.value] ∧
      ∀ b, rest.head? = some b → isDigit b = false := by
  obtain ⟨white,sign,digits,left,cut⟩ := exists_cut text
  rw [convertInt_cut cut] at converted
  split at converted
  · cases converted
  · rename_i some
    split at converted
    · rename_i fits
      cases converted
      exact ⟨⟨white,sign,digits,cut.spaces,cut.signed,some,cut.decimals,fits⟩,by simp [Numeral.text,cut.parts],rfl,cut.behind⟩
    · cases converted

theorem convertInt_fails (converted : convertInt text = .fails rest) :
    ∃ white sign, text = white ++ (sign ++ rest) ∧ (∀ b ∈ white, isSpace b = true) ∧
      (sign = [] ∨ sign = [43] ∨ sign = [45]) := by
  obtain ⟨white,sign,digits,left,cut⟩ := exists_cut text
  rw [convertInt_cut cut] at converted
  split at converted
  · rename_i none
    cases converted
    exact ⟨white,sign,by rw [cut.parts,none,List.nil_append],cut.spaces,cut.signed⟩
  · split at converted <;> cases converted

theorem convert_set (maximal : Maximal accepts text run rest) (capacity : Nat) :
    (Directive.set accepts capacity).convert text =
      if run = [] then .fails text else if run.length < capacity then .gives [.text run] rest else .undefined := by
  simp only [Directive.convert,maximal.parts]

theorem scan_append (first second : List Directive) (text : Bytes) :
    scan (first ++ second) text = (scan first text).bind fun out =>
      if out.complete then (scan second out.rest).map fun later =>
        {later with items := out.items ++ later.items,atEnd := out.atEnd || later.atEnd}
      else some out := by
  induction first generalizing text with
  | nil =>
    rw [List.nil_append,scan,Option.bind_some,if_pos rfl]
    cases scan second text <;> rfl
  | cons directive first ih =>
    rw [List.cons_append,scan,scan]
    cases directive.convert text with
    | undefined => rfl
    | fails rest => rfl
    | gives items rest =>
      simp only [ih]
      cases scan first rest with
      | none => rfl
      | some out =>
        simp only [Option.bind_some,Option.map_some]
        split
        · cases scan second out.rest <;> simp [List.append_assoc,Bool.or_assoc]
        · rfl

-- What a part of a format reads, told by texts: each of them whole whatever is
-- behind it, of each a beginning up to the end of the input, and nothing else.
structure Exact (format : List Directive) (text : τ → Bytes) (items : τ → List Item) : Prop where
  whole : ∀ t rest, scan format (text t ++ rest) = some ⟨items t,rest,true,false⟩
  short : ∀ t front tail, text t = front ++ tail → tail ≠ [] → ∃ got rest, scan format front = some ⟨got,rest,false,true⟩
  only : ∀ input out, scan format input = some out → out.complete = true ∨ out.atEnd = true →
    (∃ t rest, input = text t ++ rest) ∨ ∃ t tail, tail ≠ [] ∧ text t = input ++ tail

theorem Exact.comp {text : τ → Bytes} {f : σ → τ} (exact : Exact format text items) (onto : Function.Surjective f) :
    Exact format (fun s => text (f s)) fun s => items (f s) := by
  refine ⟨fun s => exact.whole (f s),fun s => exact.short (f s),?_⟩
  intro input out scanned told
  rcases exact.only input out scanned told with ⟨t,rest,whole⟩ | ⟨t,tail,left,cut⟩
  · obtain ⟨s,rfl⟩ := onto t
    exact .inl ⟨s,rest,whole⟩
  · obtain ⟨s,rfl⟩ := onto t
    exact .inr ⟨s,tail,left,cut⟩

theorem Exact.scan_past {firstText : α → Bytes} (one : Exact first firstText firstItems) (second : List Directive) (t : α)
    (rest : Bytes) :
    scan (first ++ second) (firstText t ++ rest) = (scan second rest).map fun later =>
      {later with items := firstItems t ++ later.items} := by
  rw [scan_append,one.whole]
  simp

theorem Exact.scan_within (one : Exact first firstText firstItems) (second : List Directive) (cut : firstText t = front ++ tail)
    (left : tail ≠ []) : ∃ got rest, scan (first ++ second) front = some ⟨got,rest,false,true⟩ := by
  obtain ⟨got,rest,scanned⟩ := one.short t front tail cut left
  rw [scan_append,scanned]
  exact ⟨got,rest,rfl⟩

theorem Exact.unfinished (one : Exact first firstText firstItems) (scanned : scan first input = some mid)
    (incomplete : mid.complete = false) (ended : mid.atEnd = true) :
    ∃ t tail, tail ≠ [] ∧ firstText t = input ++ tail := by
  rcases one.only input mid scanned (.inr ended) with ⟨t,rest,rfl⟩ | short
  · rw [one.whole] at scanned
    cases scanned
    cases incomplete
  · exact short

theorem Exact.finished (one : Exact first firstText firstItems) (scanned : scan first input = some mid)
    (complete : mid.complete = true) : ∃ t, input = firstText t ++ mid.rest ∧ mid.atEnd = false := by
  rcases one.only input mid scanned (.inl complete) with ⟨t,rest,rfl⟩ | ⟨t,tail,left,cut⟩
  · rw [one.whole] at scanned
    cases scanned
    exact ⟨t,rfl,rfl⟩
  · obtain ⟨got,rest,short⟩ := one.short t input tail cut left
    rw [short] at scanned
    cases scanned
    cases complete

theorem Exact.append_short (one : Exact first firstText firstItems) (two : Exact second secondText secondItems)
    (cut : firstText t ++ secondText u = front ++ tail) (left : tail ≠ []) :
    ∃ got rest, scan (first ++ second) front = some ⟨got,rest,false,true⟩ := by
  have past : ∀ behind, secondText u = behind ++ tail →
      ∃ got rest, scan (first ++ second) (firstText t ++ behind) = some ⟨got,rest,false,true⟩ := by
    intro behind later
    obtain ⟨got,rest,scanned⟩ := two.short u behind tail later left
    rw [one.scan_past,scanned]
    exact ⟨firstItems t ++ got,rest,rfl⟩
  rcases List.append_eq_append_iff.mp cut with ⟨behind,rfl,later⟩ | ⟨missing,early,rfl⟩
  · exact past behind later
  · by_cases done : missing = []
    · have all := past [] (by simp [done])
      rwa [List.append_nil,early,done,List.append_nil] at all
    · exact one.scan_within second early done

theorem Exact.append_only [Nonempty β] {firstText : α → Bytes} {secondText : β → Bytes}
    (one : Exact first firstText firstItems) (two : Exact second secondText secondItems) (scanned : scan (first ++ second) input = some out)
    (told : out.complete = true ∨ out.atEnd = true) :
    (∃ t : α × β, ∃ rest, input = (firstText t.1 ++ secondText t.2) ++ rest) ∨
      ∃ t : α × β, ∃ tail, tail ≠ [] ∧ firstText t.1 ++ secondText t.2 = input ++ tail := by
  rw [scan_append,Option.bind_eq_some_iff] at scanned
  obtain ⟨mid,start,onward⟩ := scanned
  cases complete : mid.complete with
  | true =>
    rw [if_pos complete] at onward
    obtain ⟨later,more,rfl⟩ := Option.map_eq_some_iff.mp onward
    obtain ⟨t,whole,early⟩ := one.finished start complete
    rw [early,Bool.false_or] at told
    rcases two.only mid.rest later more told with ⟨u,behind,rest⟩ | ⟨u,tail,left,cut⟩
    · exact .inl ⟨(t,u),behind,by rw [whole,rest,List.append_assoc]⟩
    · exact .inr ⟨(t,u),tail,left,by rw [whole,cut,List.append_assoc]⟩
  | false =>
    rw [complete,if_neg Bool.false_ne_true] at onward
    have same : mid = out := Option.some.inj onward
    subst same
    have ended : mid.atEnd = true := told.resolve_left (by rw [complete]; exact Bool.false_ne_true)
    obtain ⟨t,tail,left,cut⟩ := one.unfinished start complete ended
    obtain ⟨u⟩ := ‹Nonempty β›
    exact .inr ⟨(t,u),tail ++ secondText u,by simp [left],by rw [cut,List.append_assoc]⟩

theorem Exact.append [Nonempty β] {firstText : α → Bytes} {secondText : β → Bytes}
    (one : Exact first firstText firstItems) (two : Exact second secondText secondItems) :
    Exact (first ++ second) (fun t : α × β => firstText t.1 ++ secondText t.2)
      fun t => firstItems t.1 ++ secondItems t.2 := by
  refine ⟨?_,fun t front tail cut left => one.append_short two cut left,fun input out => one.append_only two⟩
  intro t rest
  rw [List.append_assoc,one.scan_past,two.whole]
  rfl

-- What takes the byte a run stops at, %*c or the byte itself.
structure Closes (last : Directive) (byte : UInt8) : Prop where
  taken : ∀ rest, scan [last] (byte :: rest) = some ⟨[],rest,true,false⟩
  ended : scan [last] [] = some ⟨[],[],false,true⟩

theorem literal_closes (byte : UInt8) : Closes (.literal byte) byte := by
  refine ⟨?_,rfl⟩
  intro rest
  simp [scan,Directive.convert,Directive.meetsEnd]

theorem skip_closes (byte : UInt8) : Closes .skip byte := ⟨fun _ => rfl,rfl⟩

structure Field (byte : UInt8) (capacity : Nat) where
  bytes : Bytes
  present : bytes ≠ []
  clean : byte ∉ bytes
  fits : bytes.length < capacity

def Field.text (field : Field byte capacity) : Bytes := field.bytes ++ [byte]

def other (byte : UInt8) : UInt8 → Bool := fun b => decide (b ≠ byte)

theorem field_nonempty (byte : UInt8) (room : 1 < capacity) : Nonempty (Field byte capacity) := by
  refine ⟨⟨[byte + 1],by simp,?_,room⟩⟩
  simp

theorem scan_set (maximal : Maximal accepts text run rest) (present : run ≠ []) (fits : run.length < capacity)
    (format : List Directive) :
    scan (.set accepts capacity :: format) text = (scan format rest).map fun later =>
      {later with items := .text run :: later.items,atEnd := rest.isEmpty || later.atEnd} := by
  rw [scan,convert_set maximal,if_neg present,if_pos fits]
  rfl

theorem other_inside {text : Bytes} (clean : byte ∉ text) : ∀ b ∈ text, other byte b = true := by
  intro b member
  simp only [other,decide_eq_true_eq]
  rintro rfl
  exact clean member

theorem other_behind (maximal : Maximal (other byte) text run (c :: rest)) : c = byte := by
  have stops := maximal.behind c rfl
  simpa [other] using stops

theorem Field.maximal (field : Field byte capacity) (rest : Bytes) :
    Maximal (other byte) (field.text ++ rest) field.bytes (byte :: rest) := by
  refine ⟨by simp [Field.text],other_inside field.clean,?_⟩
  intro b first
  cases first
  simp [other]

theorem scan_closed (closes : Closes last byte) (field : Field byte capacity) (rest : Bytes) :
    scan [.set (other byte) capacity,last] (field.text ++ rest) = some ⟨[.text field.bytes],rest,true,false⟩ := by
  rw [scan_set (field.maximal rest) field.present field.fits,closes.taken]
  rfl

theorem front_of_closed {text : Bytes} (cut : text ++ [byte] = front ++ tail) (left : tail ≠ []) : ∃ more, text = front ++ more := by
  rcases List.append_eq_append_iff.mp cut with ⟨more,early,later⟩ | ⟨more,early,_⟩
  · cases more with
    | nil => exact ⟨[],by rw [List.append_nil] at early ⊢; exact early.symm⟩
    | cons c more =>
      obtain ⟨_,none⟩ := List.cons.inj later
      exact absurd (List.append_eq_nil_iff.mp none.symm).2 left
  · exact ⟨more,early⟩

theorem Field.short (field : Field byte capacity) (closes : Closes last byte) (cut : field.text = front ++ tail)
    (left : tail ≠ []) : ∃ got rest, scan [.set (other byte) capacity,last] front = some ⟨got,rest,false,true⟩ := by
  obtain ⟨inner,behind⟩ := front_of_closed cut left
  by_cases none : front = []
  · subst none
    exact ⟨[],[],rfl⟩
  · have clean : byte ∉ front := fun member => field.clean (by rw [behind]; exact List.mem_append_left _ member)
    have short : front.length < capacity := by
      have fits := field.fits
      rw [behind,List.length_append] at fits
      omega
    have run : Maximal (other byte) front front [] := ⟨(List.append_nil front).symm,other_inside clean,nofun⟩
    rw [scan_set run none short,closes.ended]
    exact ⟨[.text front],[],rfl⟩

-- A run that fits is a field, with its byte behind it or at the end of the input.
theorem field_of_run (maximal : Maximal (other byte) input run rest) (some : run ≠ []) (fits : run.length < capacity) :
    (∃ (field : Field byte capacity) (rest : Bytes), input = field.text ++ rest) ∨
      ∃ (field : Field byte capacity) (tail : Bytes), tail ≠ [] ∧ field.text = input ++ tail := by
  have clean : byte ∉ run := fun member => by simpa [other] using maximal.inside byte member
  have whole := maximal.cut
  cases rest with
  | nil => exact .inr ⟨⟨run,some,clean,fits⟩,[byte],by simp,by rw [whole,List.append_nil]; rfl⟩
  | cons c rest =>
    have stop : c = byte := other_behind maximal
    subst stop
    exact .inl ⟨⟨run,some,clean,fits⟩,rest,by rw [whole]; simp [Field.text]⟩

theorem field_exact (closes : Closes last byte) (room : 1 < capacity) :
    Exact [.set (other byte) capacity,last] (fun field : Field byte capacity => field.text)
      fun field => [.text field.bytes] := by
  refine ⟨scan_closed closes,fun field front tail => field.short closes,?_⟩
  intro input out scanned told
  obtain ⟨run,rest,maximal⟩ : ∃ run rest, Maximal (other byte) input run rest := ⟨_,_,maximal_cut _ input⟩
  by_cases none : run = []
  · rw [scan,convert_set maximal,if_pos none] at scanned
    cases scanned
    have ended : input = [] := by simpa [Directive.meetsEnd] using told
    obtain ⟨field⟩ := field_nonempty byte room
    exact .inr ⟨field,field.text,by simp [Field.text],by rw [ended,List.nil_append]⟩
  · by_cases fits : run.length < capacity
    · exact field_of_run maximal none fits
    · rw [scan,convert_set maximal,if_neg none,if_neg fits] at scanned
      cases scanned

theorem cstring_stored (bytes held : Bytes) : cstring (overlay (bytes ++ [0]) held) = some (untilNul bytes) := by
  rw [overlay,List.append_assoc,List.singleton_append,cstring_untilNul]

theorem magnitude_append (digits more : Bytes) : magnitude digits ≤ magnitude (digits ++ more) := by
  rw [magnitude,magnitude,List.map_append,Nat.ofDigitChars_append,Nat.ofDigitChars_eq_ofDigitChars_zero (l := more.map charOf)]
  have power : 1 ≤ 10 ^ (more.map charOf).length := Nat.one_le_pow _ _ (by decide)
  have grown := Nat.mul_le_mul_right (Nat.ofDigitChars 10 (digits.map charOf) 0) power
  omega

theorem isInt_front (fits : IsInt (intValue sign (digits ++ more))) : IsInt (intValue sign digits) := by
  have grown := magnitude_append digits more
  unfold IsInt intValue at *
  split at fits <;> rename_i minus
  · rw [if_pos minus]; omega
  · rw [if_neg minus]; omega

theorem numeral_begun (numeral : Numeral) (cut : numeral.text = front ++ tail) :
    ∃ white sign digits, Cut front white sign digits [] ∧ (digits ≠ [] → IsInt (intValue sign digits)) := by
  obtain ⟨white,sign,digits,spaces,signed,present,decimals,fits⟩ := numeral
  simp only [Numeral.text] at cut
  rcases List.append_eq_append_iff.mp cut with ⟨behind,rfl,later⟩ | ⟨missing,rfl,_⟩
  · rcases List.append_eq_append_iff.mp later with ⟨more,rfl,last⟩ | ⟨missing,rfl,_⟩
    · refine ⟨white,sign,more,⟨by simp,spaces,signed,?_,nofun,nofun⟩,?_⟩
      · intro b member
        exact decimals b (by rw [last]; exact List.mem_append_left _ member)
      · intro _
        rw [last] at fits
        exact isInt_front fits
    · refine ⟨white,behind,[],⟨by simp,spaces,?_,nofun,nofun,nofun⟩,fun some => absurd rfl some⟩
      cases behind with
      | nil => exact .inl rfl
      | cons b more =>
        rcases signed with none | plus | minus
        · cases none
        · obtain ⟨rfl,none⟩ := List.cons.inj plus
          exact .inr (.inl (by rw [(List.append_eq_nil_iff.mp none).1]))
        · obtain ⟨rfl,none⟩ := List.cons.inj minus
          exact .inr (.inr (by rw [(List.append_eq_nil_iff.mp none).1]))
  · exact ⟨front,[],[],⟨by simp,fun b member => spaces b (List.mem_append_left _ member),.inl rfl,nofun,nofun,nofun⟩,
      fun some => absurd rfl some⟩

theorem scan_int (converted : convertInt text = .gives items rest) (format : List Directive) :
    scan (.int :: format) text = (scan format rest).map fun later =>
      {later with items := items ++ later.items,atEnd := rest.isEmpty || later.atEnd} := by
  rw [scan,Directive.convert,converted]
  rfl

def zeroNumeral (white sign : Bytes) (spaces : ∀ b ∈ white, isSpace b = true)
    (signed : sign = [] ∨ sign = [43] ∨ sign = [45]) : Numeral :=
  ⟨white,sign,[48],spaces,signed,List.cons_ne_nil _ _,fun _ member => by rw [List.mem_singleton.mp member]; rfl,
    by rcases signed with rfl | rfl | rfl <;> decide⟩

theorem number_whole (apart : isDigit byte = false) (numeral : Numeral) (rest : Bytes) :
    scan [.int,.literal byte] ((numeral.text ++ [byte]) ++ rest) = some ⟨[.number numeral.value],rest,true,false⟩ := by
  have stops : ∀ b, (byte :: rest).head? = some b → isDigit b = false := by
    intro b first
    cases first
    exact apart
  rw [List.append_assoc,List.singleton_append,scan_int (convertInt_numeral numeral stops),(literal_closes byte).taken]
  rfl

theorem number_short (numeral : Numeral) (cut : numeral.text ++ [byte] = front ++ tail) (left : tail ≠ []) :
    ∃ got rest, scan [.int,.literal byte] front = some ⟨got,rest,false,true⟩ := by
  obtain ⟨more,begun⟩ := front_of_closed cut left
  obtain ⟨white,sign,digits,parts,fits⟩ := numeral_begun numeral begun
  have read := convertInt_cut parts
  by_cases none : digits = []
  · rw [if_pos none] at read
    rw [scan,Directive.convert,read]
    exact ⟨[],[],rfl⟩
  · rw [if_neg none,if_pos (fits none)] at read
    rw [scan_int read,(literal_closes byte).ended]
    exact ⟨_,[],rfl⟩

theorem number_exact (apart : isDigit byte = false) :
    Exact [.int,.literal byte] (fun numeral : Numeral => numeral.text ++ [byte]) fun numeral => [.number numeral.value] := by
  refine ⟨number_whole apart,fun numeral front tail => number_short numeral,?_⟩
  intro input out scanned told
  cases read : convertInt input with
  | undefined => rw [scan,Directive.convert,read] at scanned; cases scanned
  | fails rest =>
    rw [scan,Directive.convert,read] at scanned
    cases scanned
    obtain ⟨white,sign,whole,spaces,signed⟩ := convertInt_fails read
    have ended : rest = [] := by simpa [Directive.meetsEnd] using told
    subst ended
    exact .inr ⟨zeroNumeral white sign spaces signed,[48,byte],by simp,by
      rw [whole]; simp [Numeral.text,zeroNumeral]⟩
  | gives items rest =>
    obtain ⟨numeral,whole,rfl,_⟩ := convertInt_gives read
    cases rest with
    | nil => exact .inr ⟨numeral,[byte],by simp,by rw [whole,List.append_nil]⟩
    | cons c rest =>
      by_cases stop : c = byte
      · subst stop
        exact .inl ⟨numeral,rest,by rw [whole]; simp⟩
      · rw [scan_int read] at scanned
        simp [scan,Directive.convert,Directive.meetsEnd,stop] at scanned
        subst scanned
        simp at told

def minusOf (n : Int) : Bytes := if n < 0 then [45] else []

theorem decimal_parts (n : Int) : decimal n = minusOf n ++ decimalNat n.natAbs := by
  cases n with
  | ofNat n =>
    have bare : minusOf (Int.ofNat n) = [] := if_neg (by simp)
    rw [bare]
    rfl
  | negSucc n =>
    have minus : minusOf (Int.negSucc n) = [45] := if_pos (Int.negSucc_lt_zero n)
    rw [minus]
    rfl

theorem magnitude_decimalNat (n : Nat) : magnitude (decimalNat n) = n := by
  rw [magnitude,decimalNat_chars,Nat.ofDigitChars_ten_toDigits]

theorem intValue_decimal (n : Int) : intValue (minusOf n) (decimalNat n.natAbs) = n := by
  rw [intValue,magnitude_decimalNat,minusOf]
  by_cases negative : n < 0
  · rw [if_pos negative,if_pos rfl]
    omega
  · rw [if_neg negative,if_neg (List.cons_ne_nil _ _).symm]
    omega

def decimalNumeral (value : BitVec 32) : Numeral where
  white := []
  sign := minusOf value.toInt
  digits := decimalNat value.toInt.natAbs
  spaces := by simp
  signed := by by_cases negative : value.toInt < 0 <;> simp [minusOf,negative]
  present := decimalNat_ne_nil _
  decimals := decimalNat_digits _
  fits := by
    rw [intValue_decimal]
    exact ⟨BitVec.le_toInt value,BitVec.toInt_lt⟩

theorem decimalNumeral_text (value : BitVec 32) : (decimalNumeral value).text = decimal value.toInt := by
  rw [decimal_parts]
  rfl

theorem decimalNumeral_value (value : BitVec 32) : (decimalNumeral value).value = value := by
  rw [Numeral.value,decimalNumeral,intValue_decimal,BitVec.ofInt_toInt]

end NetworkEx.ScanFormat
