import NetworkEx.WebTokens

namespace NetworkEx.RequestTokens
open ByteStreams CText TokenText WebServer WebTokens

-- strtok as the library has it: its static pointer, here an index, goes on in
-- the buffer of the last call that had one, and it puts a NUL behind each token.
structure Tokenizer where
  str : Bytes
  saved : Nat

-- strspn and strcspn: where the first byte from i on stands that the scan does
-- not pass, none where the scan leaves the array.
def scan (passes : UInt8 → Bool) (str : Bytes) (i : Nat) : Option Nat :=
  ((str.drop i).findIdx? fun b => !passes b).map (i + ·)

def strtok (token : Bytes) (s : Tokenizer) : Option (Option Nat × Tokenizer) :=
  (scan (fun b => decide (b ∈ token)) s.str s.saved).bind fun start =>
    if s.str.getD start 0 = 0 then some (none,⟨s.str,start⟩)
    else (scan (fun b => decide (b ∉ token ∧ b ≠ 0)) s.str start).map fun stop =>
      if s.str.getD stop 0 = 0 then (some start,⟨s.str,stop⟩) else (some start,⟨s.str.set stop 0,stop+1⟩)

-- tr points into the buffer, and strcpy takes the C string it finds there.
def parseLoop : List Field → Option Nat → Tokenizer → UserRequest → Option UserRequest
  | [],_,_,request => some request
  | _,none,_,request => some request
  | field :: later,some tr,s,request => do
    let copied ← cstring (s.str.drop tr)
    let request ← request.put copied field
    let taken ← strtok token s
    parseLoop later taken.1 taken.2 request

def protocolParser (str : Bytes) (request : UserRequest) : Option UserRequest :=
  (strtok token ⟨str,0⟩).bind fun taken => parseLoop [.method,.page,.httpVer] taken.1 taken.2 request

theorem scan_found {str front after : Bytes} (passed : ∀ b ∈ front, passes b = true) (stopped : passes b = false)
    (here : str.drop i = front ++ b :: after) : scan passes str i = some (i + front.length) := by
  have none : front.findIdx? (fun b => !passes b) = none := List.findIdx?_eq_none_iff.mpr fun b member => by simp [passed b member]
  rw [scan,here,List.findIdx?_append,none]
  simp [List.findIdx?_cons,stopped]

theorem scan_none {str : Bytes} (passed : ∀ b ∈ str.drop i, passes b = true) : scan passes str i = none := by
  have none : (str.drop i).findIdx? (fun b => !passes b) = none :=
    List.findIdx?_eq_none_iff.mpr fun b member => by simp [passed b member]
  rw [scan,none,Option.map_none]

theorem getD_drop {str : Bytes} (here : str.drop i = b :: after) : str.getD i 0 = b := by
  have first := congrArg (·[0]?) here
  rw [List.getElem?_drop,Nat.add_zero,List.getElem?_cons_zero] at first
  rw [List.getD_eq_getElem?_getD,first,Option.getD_some]

theorem drop_behind {str front rest : Bytes} (here : str.drop i = front ++ rest) : str.drop (i + front.length) = rest := by
  rw [← List.drop_drop,here,List.drop_left]

theorem set_behind {str word later : Bytes} (here : str.drop i = word ++ stop :: later) :
    (str.set (i + word.length) 0).drop i = word ++ 0 :: later ∧ (str.set (i + word.length) 0).drop (i + word.length + 1) = later := by
  constructor
  · rw [List.drop_set,if_neg (by omega),here,Nat.add_sub_cancel_left,List.set_append_right _ _ (Nat.le_refl _),Nat.sub_self]
    rfl
  · rw [List.drop_set_of_lt (Nat.lt_add_one _),← List.drop_drop,drop_behind here]
    rfl

theorem strtok_taken (start : scan (fun b => decide (b ∈ token)) s.str s.saved = some i) (opens : s.str.getD i 0 ≠ 0)
    (here : s.str.drop i = word ++ stop :: later) (letters : ∀ b ∈ word, decide (b ∉ token ∧ b ≠ 0) = true)
    (ends : decide (stop ∉ token ∧ stop ≠ 0) = false) :
    ∃ t, strtok token s = some (some i,t) ∧ cstring (t.str.drop i) = some word ∧
      t.str.drop t.saved = if stop = 0 then stop :: later else later := by
  have found : scan (fun b => decide (b ∉ token ∧ b ≠ 0)) s.str i = some (i + word.length) := scan_found letters ends here
  have stop_here := drop_behind here
  have clean : 0 ∉ word := by
    intro member
    exact (of_decide_eq_true (letters 0 member)).2 rfl
  by_cases last : stop = 0
  · subst last
    refine ⟨⟨s.str,i + word.length⟩,?_,?_,?_⟩
    · rw [strtok,start,Option.bind_some,if_neg opens,found,Option.map_some,getD_drop stop_here,if_pos rfl]
    · rw [here,cstring_terminated clean]
    · rw [stop_here,if_pos rfl]
  · obtain ⟨front,back⟩ := set_behind here
    refine ⟨⟨s.str.set (i + word.length) 0,i + word.length + 1⟩,?_,?_,?_⟩
    · rw [strtok,start,Option.bind_some,if_neg opens,found,Option.map_some,getD_drop stop_here,if_neg last]
    · rw [front,cstring_terminated clean]
    · rw [back,if_neg last]

-- The buffer from the saved place on is what is left of the text, and a token
-- is read back from where its pointer stands.
theorem strtok_refines (s : Tokenizer) :
    (strtok token s = none ∧ WebServer.strtok token (s.str.drop s.saved) = none) ∨
    (∃ t, strtok token s = some (none,t) ∧ WebServer.strtok token (s.str.drop s.saved) = some (none,t.str.drop t.saved)) ∨
    ∃ tr t word, strtok token s = some (some tr,t) ∧ cstring (t.str.drop tr) = some word ∧
      WebServer.strtok token (s.str.drop s.saved) = some (some word,t.str.drop t.saved) := by
  rcases first_failing (fun b => decide (b ∈ token)) (s.str.drop s.saved) with
    ⟨skipped,nothing⟩ | ⟨lead,b,rest,here,skipped,opens,_,left⟩
  · refine .inl ⟨?_,?_⟩
    · rw [strtok,scan_none skipped,Option.bind_none]
    · simp only [WebServer.strtok,nothing]
  have start : scan (fun b => decide (b ∈ token)) s.str s.saved = some (s.saved + lead.length) :=
    scan_found skipped opens here
  have there := drop_behind here
  by_cases zero : b = 0
  · refine .inr (.inl ⟨⟨s.str,s.saved + lead.length⟩,?_,?_⟩)
    · rw [strtok,start,Option.bind_some,getD_drop there,if_pos zero]
    · simp only [WebServer.strtok,left,if_pos zero,there]
  rcases first_failing (fun b => decide (b ∉ token ∧ b ≠ 0)) (b :: rest) with
    ⟨letters,nothing⟩ | ⟨word,stop,later,shape,letters,ends,taken,behind⟩
  · refine .inl ⟨?_,?_⟩
    · have unended : scan (fun b => decide (b ∉ token ∧ b ≠ 0)) s.str (s.saved + lead.length) = none := by
        apply scan_none
        rw [there]
        exact letters
      rw [strtok,start,Option.bind_some,getD_drop there,if_neg zero,unended,Option.map_none]
    · simp only [WebServer.strtok,left,if_neg zero,nothing]
  have opened : s.str.getD (s.saved + lead.length) 0 ≠ 0 := by rw [getD_drop there]; exact zero
  obtain ⟨t,result,copied,onward⟩ := strtok_taken start opened (there.trans shape) letters ends
  refine .inr (.inr ⟨s.saved + lead.length,t,word,result,copied,?_⟩)
  simp only [WebServer.strtok,left,if_neg zero,behind,taken,onward]

theorem loop_refines (copied : tr.map (fun i => cstring (s.str.drop i)) = word.map some) (request : UserRequest) :
    parseLoop fields tr s request = WebServer.parseLoop fields word (s.str.drop s.saved) request := by
  induction fields generalizing tr s word request with
  | nil => rfl
  | cons field later ih =>
    cases tr with
    | none =>
      cases word with
      | none => rfl
      | some word => cases copied
    | some i =>
      cases word with
      | none => cases copied
      | some word =>
        have copied : cstring (s.str.drop i) = some word := Option.some.inj copied
        simp only [parseLoop,WebServer.parseLoop,Option.bind_eq_bind,copied,Option.bind_some]
        congr 1
        funext next
        rcases strtok_refines s with ⟨here,there⟩ | ⟨t,here,there⟩ | ⟨tr,t,word,here,again,there⟩ <;> rw [here,there]
        · rfl
        · exact ih rfl next
        · refine ih ?_ next
          rw [Option.map_some,Option.map_some,again]

-- Over a zeroed request this is the parser of the server's model.
theorem parser_refines (str : Bytes) : protocolParser str ⟨[],[],[]⟩ = WebServer.protocolParser str := by
  have started := strtok_refines ⟨str,0⟩
  simp only [List.drop_zero] at started
  rw [protocolParser,WebServer.protocolParser,Option.bind_eq_bind]
  rcases started with ⟨here,there⟩ | ⟨t,here,there⟩ | ⟨tr,t,word,here,again,there⟩ <;> rw [here,there]
  · rfl
  · exact loop_refines rfl _
  · refine loop_refines ?_ _
    rw [Option.map_some,Option.map_some,again]

-- The request with the runs in their places and its earlier texts in the rest.
def stored (runs : List Bytes) (request : UserRequest) : UserRequest :=
  ⟨runs.getD 0 request.method,runs.getD 1 request.page,runs.getD 2 request.httpVer⟩

theorem fill_stored {words : List Bytes} (fitting : Fitting words) (request : UserRequest) :
    fill fieldOrder words request = some (stored words request) :=
  (fill_over words request (stored words request)).mpr ⟨fitting,rfl⟩

theorem parser_fill {text : Bytes} (clean : 0 ∉ text) (tail : Bytes) (request : UserRequest) :
    protocolParser (text ++ 0 :: tail) request = fill fieldOrder ((runs separates text).take 3) request := by
  have started := strtok_refines ⟨text ++ 0 :: tail,0⟩
  have looped := @loop_terminated _ fieldOrder clean tail request
  simp only [List.drop_zero,strtok_terminated clean tail] at started
  have three : fieldOrder.length = 3 := rfl
  rw [words_runs,three] at looped
  rw [protocolParser]
  rcases started with ⟨_,there⟩ | ⟨t,here,there⟩ | ⟨tr,t,word,here,again,there⟩
  · cases there
  · simp only [Option.some.injEq,Prod.mk.injEq] at there
    rw [here,Option.bind_some,← looped,there.1,there.2]
    exact loop_refines rfl _
  · simp only [Option.some.injEq,Prod.mk.injEq] at there
    rw [here,Option.bind_some,← looped,there.1,there.2]
    refine loop_refines ?_ _
    rw [Option.map_some,Option.map_some,again]

theorem stored_take (runs : List Bytes) (request : UserRequest) : stored (runs.take 3) request = stored runs request := by
  simp [stored,List.getD_eq_getElem?_getD]

theorem fitting_take (runs : List Bytes) : Fitting (runs.take 3) ↔ Fitting runs := by
  have same : ∀ i, i < 3 → (runs.take 3).getD i [] = runs.getD i [] := by
    intro i inside
    rw [List.getD_eq_getElem?_getD,List.getD_eq_getElem?_getD,List.getElem?_take_of_lt inside]
  constructor
  · intro fitting
    obtain ⟨method,page,httpVer⟩ := fitting
    rw [same _ (by decide)] at method page httpVer
    exact ⟨method,page,httpVer⟩
  · intro fitting
    obtain ⟨method,page,httpVer⟩ := fitting
    exact ⟨by rw [same 0 (by decide)]; exact method,by rw [same 1 (by decide)]; exact page,
      by rw [same 2 (by decide)]; exact httpVer⟩

theorem parser_stored {text : Bytes} (clean : 0 ∉ text) (fitting : Fitting (runs separates text)) (tail : Bytes)
    (request : UserRequest) : protocolParser (text ++ 0 :: tail) request = some (stored (runs separates text) request) := by
  rw [parser_fill clean,fill_stored ((fitting_take _).mpr fitting),stored_take]

theorem gap_exchanged (front rest : Bytes) (delimits : ∀ b ∈ gap ++ other, separates b = true)
    (placed : front = [] ∨ (gap ≠ [] ∧ other ≠ [])) :
    runs separates (front ++ (gap ++ rest)) = runs separates (front ++ (other ++ rest)) := by
  have here : ∀ b ∈ gap, separates b = true := fun b member => delimits b (List.mem_append_left _ member)
  have there : ∀ b ∈ other, separates b = true := fun b member => delimits b (List.mem_append_right _ member)
  rcases placed with rfl | ⟨some,someOther⟩
  · rw [List.nil_append,List.nil_append,runs_skip here,runs_skip there]
  · rw [runs_gap some here,runs_gap someOther there]

-- The runs decide alone: not what stands behind the delimiter that ends the
-- third, and not how many or which delimiters stand before and between them.
theorem parser_runs (request : UserRequest) :
    (∀ text tail, 0 ∉ text → Fitting (runs separates text) →
      protocolParser (text ++ 0 :: tail) request = some (stored (runs separates text) request)) ∧
    (∀ front d after other tail rest, 0 ∉ front ++ d :: after → 0 ∉ front ++ d :: other → separates d = true →
      3 ≤ (runs separates front).length →
      protocolParser (front ++ d :: after ++ 0 :: tail) request = protocolParser (front ++ d :: other ++ 0 :: rest) request) ∧
    ∀ front gap other after tail, 0 ∉ front ++ (gap ++ after) → 0 ∉ front ++ (other ++ after) →
      (∀ b ∈ gap ++ other, separates b = true) → (front = [] ∨ (gap ≠ [] ∧ other ≠ [])) →
      protocolParser (front ++ (gap ++ after) ++ 0 :: tail) request =
        protocolParser (front ++ (other ++ after) ++ 0 :: tail) request := by
  refine ⟨fun text tail clean fitting => parser_stored clean fitting tail request,?_,?_⟩
  · intro front d after other tail rest clean cleanOther delimits three
    rw [parser_fill clean,parser_fill cleanOther,runs_break front delimits,runs_break front delimits,
      List.take_append_of_le_length three,List.take_append_of_le_length three]
  · intro front gap other after tail clean cleanOther delimits placed
    rw [parser_fill clean,parser_fill cleanOther,gap_exchanged front after delimits placed]

theorem parser_runs_get :
    protocolParser (ascii "GET / HTTP/1.0\r\nHost: x" ++ 0 :: []) ⟨[1],[2],[3]⟩ =
      some ⟨ascii "GET",ascii "/",ascii "HTTP/1.0"⟩ := by
  have all := (parser_runs ⟨[1],[2],[3]⟩).1 (ascii "GET / HTTP/1.0\r\nHost: x") [] (by decide)
    ⟨by decide +kernel,by decide +kernel,by decide +kernel⟩
  have three : stored (runs separates (ascii "GET / HTTP/1.0\r\nHost: x")) ⟨[1],[2],[3]⟩ =
      ⟨ascii "GET",ascii "/",ascii "HTTP/1.0"⟩ := by decide +kernel
  rw [all,three]

end NetworkEx.RequestTokens
