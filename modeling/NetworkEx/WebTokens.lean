import NetworkEx.TokenText
import NetworkEx.WebServer

namespace NetworkEx.WebTokens
open ByteStreams CText TokenText WebServer

def separates (b : UInt8) : Bool := decide (b ∈ token)

def resume (text : Bytes) : Bytes :=
  match cutWord separates text with
  | none => []
  | some (_,after) => after.drop 1

theorem zero_apart : separates 0 = false := by decide

theorem resume_clean (clean : 0 ∉ text) : 0 ∉ resume text := by
  unfold resume
  cases cut : cutWord separates text with
  | none => exact List.not_mem_nil
  | some pair =>
    obtain ⟨word,after⟩ := pair
    obtain ⟨lead,parts⟩ := cutWord_some cut
    intro member
    apply clean
    rw [parts.whole]
    exact List.mem_append_right _ (List.mem_append_right _ (List.mem_of_mem_drop member))

def inside (b : UInt8) : Bool := decide (b ∉ token ∧ b ≠ 0)

theorem strtok_skips (skipped : ∀ b ∈ lead, separates b = true) (opens : separates b = false) (present : b ≠ 0) :
    strtok token (lead ++ b :: rest) =
      match (b :: rest).dropWhile inside with
      | [] => none
      | stop :: later => some (some ((b :: rest).takeWhile inside),if stop = 0 then stop :: later else later) := by
  have kept : (lead ++ b :: rest).dropWhile separates = b :: rest := by
    rw [List.dropWhile_append_of_pos skipped,List.dropWhile_cons_of_neg (by rw [opens]; decide)]
  show (match (lead ++ b :: rest).dropWhile separates with | [] => none | b :: rest => _) = _
  rw [kept]
  exact if_neg present

theorem inside_word {word : Bytes} (outside : ∀ b ∈ word, separates b = false) (clean : 0 ∉ word) : ∀ b ∈ word, inside b = true := by
  intro b member
  have letter : b ∉ token := of_decide_eq_false (outside b member)
  have present : b ≠ 0 := fun zero => clean (zero ▸ member)
  exact decide_eq_true ⟨letter,present⟩

theorem strtok_word (parts : Parts separates text lead word after) (clean : 0 ∉ word) (stops : inside stop = false) :
    strtok token (lead ++ (word ++ stop :: later)) = some (some word,if stop = 0 then stop :: later else later) := by
  obtain ⟨b,more,rfl⟩ := List.exists_cons_of_ne_nil parts.present
  have letters := inside_word parts.word clean
  have present : b ≠ 0 := fun zero => clean (zero ▸ List.mem_cons_self)
  have left : (b :: (more ++ stop :: later)).dropWhile inside = stop :: later := by
    rw [← List.cons_append,List.dropWhile_append_of_pos letters]
    simp [stops]
  have taken : (b :: (more ++ stop :: later)).takeWhile inside = b :: more := by
    rw [← List.cons_append,List.takeWhile_append_of_pos letters]
    simp [stops]
  rw [List.cons_append,strtok_skips parts.lead (parts.word b List.mem_cons_self) present,left,taken]

theorem strtok_unended (parts : Parts separates text lead word []) (clean : 0 ∉ word) :
    strtok token text = none := by
  obtain ⟨b,more,rfl⟩ := List.exists_cons_of_ne_nil parts.present
  have letters := inside_word parts.word clean
  have present : b ≠ 0 := fun zero => clean (zero ▸ List.mem_cons_self)
  have left : (b :: more).dropWhile inside = [] := List.dropWhile_eq_nil_iff.mpr letters
  rw [parts.whole,List.append_nil,strtok_skips parts.lead (parts.word b List.mem_cons_self) present,left]

theorem word_clean (parts : Parts separates text lead word after) (clean : 0 ∉ text) : 0 ∉ word := by
  intro member
  apply clean
  rw [parts.whole]
  exact List.mem_append_right _ (List.mem_append_left _ member)

theorem after_stops (parts : Parts separates text lead word (stop :: later)) (clean : 0 ∉ text) :
    inside stop = false ∧ stop ≠ 0 := by
  have ends : separates stop = true := parts.behind stop rfl
  constructor
  · exact decide_eq_false fun both => both.1 (of_decide_eq_true ends)
  · intro zero
    apply clean
    rw [parts.whole,zero]
    exact List.mem_append_right _ (List.mem_append_right _ List.mem_cons_self)

theorem strtok_terminated (clean : 0 ∉ text) (tail : Bytes) :
    strtok token (text ++ 0 :: tail) = some ((cutWord separates text).map Prod.fst,resume text ++ 0 :: tail) := by
  cases cut : cutWord separates text with
  | none =>
    have skipped : (text ++ 0 :: tail).dropWhile separates = 0 :: tail := by
      rw [List.dropWhile_append_of_pos (cutWord_none.mp cut),List.dropWhile_cons_of_neg (by rw [zero_apart]; decide)]
    have result : strtok token (text ++ 0 :: tail) = some (none,0 :: tail) := by
      show (match (text ++ 0 :: tail).dropWhile separates with | [] => none | b :: rest => _) = _
      rw [skipped]
      rfl
    simp [result,resume,cut]
  | some pair =>
    obtain ⟨word,after⟩ := pair
    obtain ⟨lead,parts⟩ := cutWord_some cut
    have letters := word_clean parts clean
    have whole := parts.whole
    cases after with
    | nil =>
      have region : text ++ 0 :: tail = lead ++ (word ++ 0 :: tail) := by rw [whole]; simp
      rw [region,strtok_word parts letters (by decide),if_pos rfl]
      simp [resume,cut]
    | cons stop later =>
      obtain ⟨stops,present⟩ := after_stops parts clean
      have region : text ++ 0 :: tail = lead ++ (word ++ stop :: (later ++ 0 :: tail)) := by rw [whole]; simp
      rw [region,strtok_word parts letters stops,if_neg present]
      simp [resume,cut]

-- In an array without a NUL it comes back only from a word that a separator
-- ends.
theorem strtok_open (clean : 0 ∉ region) :
    strtok token region =
      match cutWord separates region with
      | none => none
      | some (word,after) => if after = [] then none else some (some word,after.drop 1) := by
  cases cut : cutWord separates region with
  | none =>
    show (match region.dropWhile separates with | [] => none | b :: rest => _) = _
    rw [List.dropWhile_eq_nil_iff.mpr (cutWord_none.mp cut)]
  | some pair =>
    obtain ⟨word,after⟩ := pair
    obtain ⟨lead,parts⟩ := cutWord_some cut
    have letters := word_clean parts clean
    cases after with
    | nil => exact (strtok_unended parts letters).trans (if_pos rfl).symm
    | cons stop later =>
      obtain ⟨stops,present⟩ := after_stops parts clean
      rw [parts.whole,strtok_word parts letters stops,if_neg present]
      exact (if_neg (List.cons_ne_nil _ _)).symm

def fill : List Field → List Bytes → UserRequest → Option UserRequest
  | [],_,request => some request
  | _,[],request => some request
  | field :: fields,word :: words,request => (request.put word field).bind (fill fields words)

def fieldOrder : List Field := [.method,.page,.httpVer]

theorem loop_terminated (clean : 0 ∉ text) (tail : Bytes) (request : UserRequest) :
    parseLoop fields ((cutWord separates text).map Prod.fst) (resume text ++ 0 :: tail) request =
      fill fields (words separates fields.length text) request := by
  induction fields generalizing text request with
  | nil => rfl
  | cons field later ih =>
    cases cut : cutWord separates text with
    | none => simp only [Option.map_none,parseLoop,List.length_cons,words,cut,fill]
    | some pair =>
      obtain ⟨word,after⟩ := pair
      have going : resume text = after.drop 1 := by simp only [resume,cut]
      have cleaner := resume_clean clean
      rw [going] at cleaner ⊢
      simp only [Option.map_some,parseLoop,List.length_cons,words,cut,fill,Option.bind_eq_bind]
      congr 1
      funext next
      rw [strtok_terminated cleaner tail,Option.bind_some]
      exact ih cleaner next

theorem loop_open (clean : 0 ∉ region) (request : UserRequest) :
    (strtok token region).bind (fun taken => parseLoop fields taken.1 taken.2 request) = some result ↔
      Closed separates (fields.length+1) region ∧ fill fields (words separates fields.length region) request = some result := by
  induction fields generalizing region request with
  | nil => 
    rw [strtok_open clean]
    cases cut : cutWord separates region with
    | none => simp [Closed,cut]
    | some pair =>
      obtain ⟨word,after⟩ := pair
      by_cases ended : after = []
      · simp [Closed,cut,ended]
      · simp [Closed,cut,ended,parseLoop,fill]
  | cons field later ih =>
    rw [strtok_open clean]
    cases cut : cutWord separates region with
    | none => simp [Closed,cut]
    | some pair =>
      obtain ⟨word,after⟩ := pair
      have cleaner : 0 ∉ after.drop 1 := by
        have resumed := resume_clean clean
        simpa only [resume,cut] using resumed
      by_cases ended : after = []
      · simp [Closed,cut,ended]
      · simp only [if_neg ended,Option.bind_some,parseLoop,Option.bind_eq_bind,Option.bind_eq_some_iff,List.length_cons,
          words,cut,fill,Closed]
        have onward := fun next => ih cleaner next
        simp only [Option.bind_eq_some_iff] at onward
        constructor
        · intro filling
          obtain ⟨next,put,taken⟩ := filling
          obtain ⟨closed,filled⟩ := (onward next).mp taken
          exact ⟨⟨ended,closed⟩,next,put,filled⟩
        · intro both
          obtain ⟨⟨_,closed⟩,next,put,filled⟩ := both
          exact ⟨next,put,(onward next).mpr ⟨closed,filled⟩⟩

def requestOf (words : List Bytes) : UserRequest := ⟨words.getD 0 [],words.getD 1 [],words.getD 2 []⟩

structure Fitting (words : List Bytes) : Prop where
  method : (words.getD 0 []).length < 20
  page : (words.getD 1 []).length < 255
  httpVer : (words.getD 2 []).length < 80

theorem put_exact (request : UserRequest) (tr : Bytes) (next : UserRequest) :
    (request.put tr .method = some next ↔ tr.length < 20 ∧ {request with method := tr} = next) ∧
    (request.put tr .page = some next ↔ tr.length < 255 ∧ {request with page := tr} = next) ∧
    (request.put tr .httpVer = some next ↔ tr.length < 80 ∧ {request with httpVer := tr} = next) := by
  have copied : ∀ capacity (store : Bytes → UserRequest),
      (sprintf capacity tr).map store = some next ↔ tr.length < capacity ∧ store tr = next := by
    intro capacity store
    unfold sprintf
    split
    · rename_i fits
      simp [fits]
    · rename_i long
      simp [long]
  exact ⟨copied 20 _,copied 255 _,copied 80 _⟩

theorem fill_over (words : List Bytes) (old request : UserRequest) :
    fill fieldOrder words old = some request ↔
      Fitting words ∧ ⟨words.getD 0 old.method,words.getD 1 old.page,words.getD 2 old.httpVer⟩ = request := by
  have method := fun r tr next => (put_exact r tr next).1
  have page := fun r tr next => (put_exact r tr next).2.1
  have httpVer := fun r tr next => (put_exact r tr next).2.2
  have parts : Fitting words ↔
      (words.getD 0 []).length < 20 ∧ (words.getD 1 []).length < 255 ∧ (words.getD 2 []).length < 80 :=
    ⟨fun fitting => ⟨fitting.method,fitting.page,fitting.httpVer⟩,fun fits => ⟨fits.1,fits.2.1,fits.2.2⟩⟩
  rw [parts]
  match words with
  | [] => simp [fill,fieldOrder]
  | [a] => simp [fill,fieldOrder,method]
  | [a,b] => simp [fill,fieldOrder,method,page,Option.bind_eq_some_iff,and_assoc]
  | a :: b :: c :: more => simp [fill,fieldOrder,method,page,httpVer,Option.bind_eq_some_iff,and_assoc]

theorem fill_exact (words : List Bytes) (request : UserRequest) :
    fill fieldOrder words ⟨[],[],[]⟩ = some request ↔ Fitting words ∧ requestOf words = request :=
  fill_over words ⟨[],[],[]⟩ request

-- The C string at the front of what was read, or all of it.
def text (received : Bytes) : Bytes := received.takeWhile fun b => decide (b ≠ 0)

def Ended (received : Bytes) : Prop := received.length < MAXLINE ∨ 0 ∈ received

def buffer (received : Bytes) : Bytes := overlay received (List.replicate MAXLINE 0)

theorem text_clean (received : Bytes) : 0 ∉ text received := by
  intro member
  have kept := List.mem_takeWhile_imp member
  simp at kept

theorem text_all (clean : 0 ∉ received) : text received = received := by
  apply List.takeWhile_eq_self_iff.mpr
  intro b member
  exact decide_eq_true fun zero => clean (zero ▸ member)

theorem text_before (clean : 0 ∉ before) (after : Bytes) : text (before ++ 0 :: after) = before := by
  have letters : ∀ b ∈ before, decide (b ≠ 0) = true := fun b member => decide_eq_true fun zero => clean (zero ▸ member)
  rw [text,List.takeWhile_append_of_pos letters]
  simp

theorem buffer_ended (ended : Ended received) : ∃ tail, buffer received = text received ++ 0 :: tail := by
  by_cases zero : 0 ∈ received
  · obtain ⟨found,terminated⟩ := Option.isSome_iff_exists.mp (cstring_isSome.mpr zero)
    obtain ⟨clean,after,rfl⟩ := cstring_parts terminated
    refine ⟨after ++ (List.replicate MAXLINE 0).drop (found ++ 0 :: after).length,?_⟩
    rw [text_before clean]
    simp [buffer,overlay]
  · have room : received.length < MAXLINE := ended.resolve_right zero
    refine ⟨List.replicate (MAXLINE - received.length - 1) 0,?_⟩
    rw [text_all zero,buffer,overlay,List.drop_replicate,← List.replicate_succ]
    congr 2
    omega

theorem buffer_open (fits : received.length ≤ MAXLINE) (open_ : ¬ Ended received) :
    buffer received = received ∧ 0 ∉ received := by
  obtain ⟨full,clean⟩ := not_or.mp open_
  refine ⟨overlay_whole ?_,clean⟩
  rw [List.length_replicate]
  omega

theorem parser_exact (fits : received.length ≤ MAXLINE) (request : UserRequest) :
    protocolParser (buffer received) = some request ↔
      (Ended received ∨ Closed separates 4 received) ∧ Fitting (words separates 3 (text received)) ∧
        requestOf (words separates 3 (text received)) = request := by
  by_cases ended : Ended received
  · obtain ⟨tail,region⟩ := buffer_ended ended
    have parsed : protocolParser (buffer received) = fill fieldOrder (words separates 3 (text received)) ⟨[],[],[]⟩ := by
      rw [region,protocolParser,strtok_terminated (text_clean received)]
      exact loop_terminated (text_clean received) tail _
    rw [parsed,fill_exact]
    exact (and_iff_right (.inl ended)).symm
  · obtain ⟨region,clean⟩ := buffer_open fits ended
    rw [region,text_all clean,← fill_exact,or_iff_right ended]
    exact loop_open clean _

end NetworkEx.WebTokens
