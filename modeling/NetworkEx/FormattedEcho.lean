import NetworkEx.ScanFormat

namespace NetworkEx.FormattedEcho
open ByteStreams CText ScanFormat

structure Vars where
  nickname : Bytes
  realname : Bytes
  age : BitVec 32
  message : Bytes
  deriving DecidableEq

def comma : UInt8 := 44
def newline : UInt8 := 10

-- "%[^,],%[^,],%d,%[^\n]%*c"
def format : List Directive :=
  [.set (other comma) 24,.literal comma,.set (other comma) 24,.literal comma,.int,.literal comma,
    .set (other newline) 256,.skip]

def store (v : Vars) (items : List Item) : Vars :=
  ⟨storedText items 0 v.nickname,storedText items 1 v.realname,storedNumber items 2 v.age,storedText items 3 v.message⟩

-- What printf and fprintf read; the difference from 2010 wraps.
def replyText (v : Vars) : Option Bytes := do
  let _ ← cstring v.nickname
  let realname ← cstring v.realname
  let message ← cstring v.message
  return ascii "yourname is " ++ realname ++ (ascii "\nyour message is " ++ message ++
    (ascii "\nyour birth year is " ++ decimal (2010 - v.age).toInt ++ [newline]))

inductive Pass where
  | undefined
  | leaves
  | replies (text : Bytes) (next : Vars) (rest : List Bytes)
  deriving DecidableEq

-- `segments` is what the reads of the socket bring, one after another: what is
-- unread in the buffer of sock_fp once n bytes are taken, and the reads to come.
def buffered : Nat → List Bytes → Bytes × List Bytes
  | 0,segments => ([],segments)
  | _ + 1,[] => ([],[])
  | n + 1,segment :: later =>
    if n + 1 < segment.length then (segment.drop (n + 1),later) else buffered (n + 1 - segment.length) later

-- One pass of the inner loop. An fprintf right behind an fscanf needs a stream
-- with nothing unread, be it a byte that did not match or one of the next record;
-- with that, glibc sends nothing more and never leaves the loop.
def pass (v : Vars) (segments : List Bytes) : Pass :=
  match scan format segments.flatten with
  | none => .undefined
  | some out =>
    if out.atEnd then .leaves
    else if out.complete then
      match buffered (segments.flatten.length - out.rest.length) segments,replyText (store v out.items) with
      | ([],later),some text => .replies text (store v out.items) later
      | _,_ => .undefined
    else .undefined

inductive Reached (v : Vars) (segments : List Bytes) : Vars → List Bytes → Prop
  | start : Reached v segments v segments
  | next : Reached v segments before left → pass before left = .replies text after rest → Reached v segments after rest

-- Nothing is stored beyond its array, and the pass leaves the loop or takes
-- some of the stream, with a reply that is the same whatever was held before.
def Sound (segments : List Bytes) : Prop :=
  (∀ v, pass v segments = .leaves) ∨
    ∃ text rest, rest.flatten.length < segments.flatten.length ∧ ∀ v, ∃ next, pass v segments = .replies text next rest

structure Serves (segments : List Bytes) : Prop where
  passes : ∀ v after rest, Reached v segments after rest → Sound rest
  ends : ∀ v, ∃ after rest, Reached v segments after rest ∧ pass after rest = .leaves

structure Record where
  nickname : Field comma 24
  realname : Field comma 24
  age : Numeral
  message : Field newline 256

def Record.text (record : Record) : Bytes :=
  (record.nickname.text ++ record.realname.text) ++ ((record.age.text ++ [comma]) ++ record.message.text)

def Record.items (record : Record) : List Item :=
  [.text record.nickname.bytes,.text record.realname.bytes,.number record.age.value,.text record.message.bytes]

theorem record_nonempty : Nonempty Record := by
  obtain ⟨name⟩ : Nonempty (Field comma 24) := field_nonempty comma (by decide)
  obtain ⟨message⟩ : Nonempty (Field newline 256) := field_nonempty newline (by decide)
  exact ⟨name,name,zeroNumeral [] [] (by simp) (.inl rfl),message⟩

theorem format_exact : Exact format Record.text Record.items := by
  have name : Exact [.set (other comma) 24,.literal comma] (fun field : Field comma 24 => field.text) _ :=
    field_exact (literal_closes comma) (by decide)
  have age : Exact [.int,.literal comma] (fun numeral : Numeral => numeral.text ++ [comma]) _ := number_exact (by decide)
  have message : Exact [.set (other newline) 256,.skip] (fun field : Field newline 256 => field.text) _ :=
    field_exact (skip_closes newline) (by decide)
  obtain ⟨record⟩ := record_nonempty
  have : Nonempty (Field comma 24) := ⟨record.nickname⟩
  have : Nonempty (Field newline 256) := ⟨record.message⟩
  have : Nonempty (Numeral × Field newline 256) := ⟨record.age,record.message⟩
  have parts := (name.append name).append (age.append message)
  let f : Record → (Field comma 24 × Field comma 24) × (Numeral × Field newline 256) :=
    fun record => ((record.nickname,record.realname),(record.age,record.message))
  have onto : Function.Surjective f := by
    intro fields
    exact ⟨⟨fields.1.1,fields.1.2,fields.2.1,fields.2.2⟩,rfl⟩
  exact parts.comp onto

def Record.reply (record : Record) : Bytes :=
  ascii "yourname is " ++ untilNul record.realname.bytes ++
    (ascii "\nyour message is " ++ untilNul record.message.bytes ++
      (ascii "\nyour birth year is " ++ decimal (2010 - record.age.value).toInt ++ [newline]))

theorem replyText_record (v : Vars) (record : Record) : replyText (store v record.items) = some record.reply := by
  have nickname := cstring_stored record.nickname.bytes v.nickname
  have realname := cstring_stored record.realname.bytes v.realname
  have message := cstring_stored record.message.bytes v.message
  simp only [replyText,store,storedText,storedNumber,Record.items,List.getElem?_cons_zero,List.getElem?_cons_succ,nickname,
    realname,message,Option.bind_eq_bind,Option.bind_some]
  rfl

theorem record_length (record : Record) : 0 < record.text.length := by
  have some := List.length_pos_of_ne_nil record.nickname.present
  simp only [Record.text,Field.text,List.length_append]
  omega

theorem buffered_parts (within : n ≤ segments.flatten.length) (taken : buffered n segments = (left,later)) :
    ∃ group, segments = group ++ later ∧ group.flatten = segments.flatten.take n ++ left := by
  induction segments generalizing n with
  | nil =>
    have none : n = 0 := Nat.le_zero.mp within
    subst none
    cases taken
    exact ⟨[],rfl,rfl⟩
  | cons segment rest ih =>
    cases n with
    | zero =>
      cases taken
      exact ⟨[],rfl,rfl⟩
    | succ n =>
      rw [buffered] at taken
      split at taken
      · rename_i inside
        cases taken
        refine ⟨[segment],rfl,?_⟩
        simp [List.take_append_of_le_length (Nat.le_of_lt inside)]
      · rename_i outside
        rw [List.flatten_cons,List.length_append] at within
        obtain ⟨group,whole,parts⟩ := ih (by omega) taken
        refine ⟨segment :: group,by rw [whole,List.cons_append],?_⟩
        have front : segment.take (n + 1) = segment := List.take_of_length_le (Nat.le_of_not_lt outside)
        rw [List.flatten_cons,List.flatten_cons,List.take_append,front,parts,List.append_assoc]

-- Where segments end with what is taken, nothing is unread.
theorem buffered_group (length : group.flatten.length = n) (later : List Bytes) :
    ∃ empty : List Bytes, empty.flatten = [] ∧ buffered n (group ++ later) = ([],empty ++ later) := by
  induction group generalizing n with
  | nil =>
    have none : n = 0 := length.symm
    subst none
    exact ⟨[],rfl,by simp [buffered]⟩
  | cons segment rest ih =>
    cases n with
    | zero => exact ⟨segment :: rest,List.length_eq_zero_iff.mp length,rfl⟩
    | succ n =>
      rw [List.flatten_cons,List.length_append] at length
      have outside : ¬ n + 1 < segment.length := by omega
      rw [List.cons_append,buffered,if_neg outside]
      exact ih (by omega)

theorem pass_record {record : Record} (whole : group.flatten = record.text) (later : List Bytes) :
    ∃ empty : List Bytes, empty.flatten = [] ∧
      ∀ v, pass v (group ++ later) = .replies record.reply (store v record.items) (empty ++ later) := by
  obtain ⟨empty,nothing,taken⟩ := buffered_group (congrArg List.length whole) later
  refine ⟨empty,nothing,?_⟩
  intro v
  have length : (record.text ++ later.flatten).length - later.flatten.length = record.text.length := by simp
  simp only [pass,List.flatten_append,whole,format_exact.whole,replyText_record,length,taken,Bool.false_eq_true,if_false,if_true]

theorem pass_begun {record : Record} (cut : record.text = segments.flatten ++ tail) (left : tail ≠ []) (v : Vars) :
    pass v segments = .leaves := by
  obtain ⟨got,rest,scanned⟩ := format_exact.short record segments.flatten tail cut left
  simp only [pass,scanned,if_true]

theorem pass_replies (replied : pass v segments = .replies text next rest) :
    ∃ record group, segments = group ++ rest ∧ group.flatten = Record.text record := by
  cases scanned : scan format segments.flatten with
  | none => simp only [pass,scanned] at replied; cases replied
  | some out =>
    simp only [pass,scanned] at replied
    split at replied
    · cases replied
    · rename_i early
      split at replied
      · rename_i complete
        split at replied
        · rename_i later shown taken printed
          cases replied
          rcases format_exact.only segments.flatten out scanned (.inl complete) with ⟨record,behind,whole⟩ | ⟨record,tail,left,cut⟩
          · rw [whole,format_exact.whole] at scanned
            cases scanned
            rw [whole,List.length_append,Nat.add_sub_cancel] at taken
            have within : record.text.length ≤ segments.flatten.length := by rw [whole]; simp
            obtain ⟨group,parts,same⟩ := buffered_parts within taken
            refine ⟨record,group,parts,?_⟩
            rw [same,whole,List.take_left,List.append_nil]
          · obtain ⟨got,unread,short⟩ := format_exact.short record segments.flatten tail cut left
            cases scanned.symm.trans short
            exact absurd rfl early
        · cases replied
      · cases replied

theorem pass_leaves (leaves : pass v segments = .leaves) : ∃ record tail, tail ≠ [] ∧ Record.text record = segments.flatten ++ tail := by
  cases scanned : scan format segments.flatten with
  | none => simp only [pass,scanned] at leaves; cases leaves
  | some out =>
    simp only [pass,scanned] at leaves
    split at leaves
    · rename_i ended
      rcases format_exact.only segments.flatten out scanned (.inr ended) with ⟨record,behind,whole⟩ | short
      · rw [whole,format_exact.whole] at scanned
        cases scanned
        cases ended
      · exact short
    · split at leaves
      · split at leaves <;> cases leaves
      · cases leaves

def unset : Vars := ⟨[0],[0],0,[0]⟩

-- Records one behind the other, each up to the end of a segment, and at last
-- perhaps one that is not all there.
inductive Parted : List Bytes → Prop
  | begun (record : Record) (tail : Bytes) : tail ≠ [] → record.text = segments.flatten ++ tail → Parted segments
  | record (record : Record) : group.flatten = record.text → Parted later → Parted (group ++ later)

theorem parted_behind (nothing : empty.flatten = []) (parted : Parted segments) : Parted (empty ++ segments) := by
  cases parted with
  | begun record tail left cut => exact .begun record tail left (by rw [List.flatten_append,nothing]; exact cut)
  | record record whole later =>
    rw [← List.append_assoc]
    exact .record record (by rw [List.flatten_append,nothing]; exact whole) later

theorem record_shorter {record : Record} (whole : group.flatten = record.text) (nothing : empty.flatten = []) (later : List Bytes) :
    (empty ++ later).flatten.length < (group ++ later).flatten.length := by
  have some := record_length record
  rw [List.flatten_append,List.flatten_append,nothing,whole,List.length_append]
  simp [some]

theorem parted_sound (parted : Parted segments) : Sound segments := by
  cases parted with
  | begun record tail left cut => exact .inl (pass_begun cut left)
  | record record whole onward =>
    rename_i later group
    obtain ⟨empty,nothing,replied⟩ := pass_record whole later
    exact .inr ⟨record.reply,empty ++ later,record_shorter whole nothing later,fun v => ⟨_,replied v⟩⟩

theorem parted_pass (parted : Parted segments) (passed : pass v segments = .replies text next rest) : Parted rest := by
  cases parted with
  | begun record tail left cut =>
    rw [pass_begun cut left] at passed
    cases passed
  | record record whole later =>
    obtain ⟨empty,nothing,replied⟩ := pass_record whole _
    rw [replied v] at passed
    cases passed
    exact parted_behind nothing later

theorem parted_reached (parted : Parted segments) (reached : Reached v segments after rest) : Parted rest := by
  induction reached with
  | start => exact parted
  | next _ passed ih => exact parted_pass ih passed

theorem reached_behind (passed : pass v segments = .replies text next rest) (reached : Reached next rest after left) :
    Reached v segments after left := by
  induction reached with
  | start => exact .next .start passed
  | next _ later ih => exact .next ih later

theorem parted_ends (parted : Parted segments) (v : Vars) : ∃ after rest, Reached v segments after rest ∧ pass after rest = .leaves := by
  induction length : segments.flatten.length using Nat.strongRecOn generalizing segments v with
  | ind n ih =>
    cases parted with
    | begun record tail left cut => exact ⟨v,segments,.start,pass_begun cut left v⟩
    | record record whole onward =>
      rename_i later group
      obtain ⟨empty,nothing,replied⟩ := pass_record whole later
      have shorter := record_shorter whole nothing later
      obtain ⟨after,rest,reached,ended⟩ :=
        ih _ (length ▸ shorter) (parted_behind nothing onward) (store v record.items) rfl
      exact ⟨after,rest,reached_behind (replied v) reached,ended⟩

theorem sound_parted (passes : ∀ after rest, Reached v segments after rest → Sound rest) : Parted segments := by
  induction length : segments.flatten.length using Nat.strongRecOn generalizing segments v with
  | ind n ih =>
    rcases passes v segments .start with left | ⟨text,rest,shorter,replied⟩
    · obtain ⟨record,tail,some,cut⟩ := pass_leaves (left v)
      exact .begun record tail some cut
    · obtain ⟨next,one⟩ := replied v
      obtain ⟨record,group,parts,whole⟩ := pass_replies one
      have onward : ∀ after left, Reached next rest after left → Sound left :=
        fun after left reached => passes after left (reached_behind one reached)
      rw [parts]
      exact .record record whole (ih _ (length ▸ shorter) onward rfl)

theorem serves_exact (segments : List Bytes) : Serves segments ↔ Parted segments := by
  constructor
  · intro serves
    exact sound_parted (serves.passes unset)
  · intro parted
    exact ⟨fun v after rest reached => parted_sound (parted_reached parted reached),parted_ends parted⟩

theorem comma_repeats :
    scan format (ascii ",") = some ⟨[],ascii ",",false,false⟩ ∧ pass unset [ascii ","] = .undefined ∧ ¬ Serves [ascii ","] := by
  have scanned : scan format (ascii ",") = some ⟨[],ascii ",",false,false⟩ := by decide
  have undefined : pass unset [ascii ","] = .undefined := by decide
  refine ⟨scanned,undefined,?_⟩
  intro serves
  rcases serves.passes unset _ _ .start with left | ⟨text,rest,_,replied⟩
  · rw [left] at undefined
    cases undefined
  · obtain ⟨next,same⟩ := replied unset
    rw [same] at undefined
    cases undefined

end NetworkEx.FormattedEcho
