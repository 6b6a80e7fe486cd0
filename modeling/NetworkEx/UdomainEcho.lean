import NetworkEx.UdomainServer

namespace NetworkEx.UdomainEcho
open ByteStreams CText TransitionRuns
open UdomainServer (MAXLINE filled shown)

-- What a read of the terminal brings: a line, or nothing at the end.
abbrev Line := {bytes : Bytes // bytes.length < MAXLINE ∧ 0 ∉ bytes}

abbrev Beyond := {bytes : Bytes // 0 ∉ bytes}

inductive Client where
  | prompt
  | writing (buf : Bytes)
  | reading (buf : Bytes)
  | exited
  deriving DecidableEq

inductive Server where
  | reading
  | writing (text : Bytes)
  | accepting
  deriving DecidableEq

-- `up` and `down` are the two directions of the stream; `lines` and `printed`
-- are history: the lines sent or to be sent, and what stood behind "Server -> ".
structure State where
  client : Client
  server : Server
  up : Bytes
  down : Bytes
  lines : List Bytes
  printed : List Bytes

def initial : State := ⟨.prompt,.reading,[],[],[],[]⟩

-- A read may take any part of what is there, up to MAXLINE bytes.
inductive Action where
  | line (line : Line)
  | send
  | receive (count : Nat) (beyond : Beyond)
  | answer
  | reply (count : Nat) (beyond : Beyond)
  | hangup

def Takes (count : Nat) (stream : Bytes) : Prop := 0 < count ∧ count ≤ MAXLINE ∧ count ≤ stream.length

instance (count : Nat) (stream : Bytes) : Decidable (Takes count stream) := inferInstanceAs (Decidable (_ ∧ _ ∧ _))

-- The client reads the reply over the line that it has sent.
def step (s : State) : Action → Option State
  | .line line =>
    match s.client with
    | .prompt =>
      if (filled line.val).take 5 = ascii "quit\n" then some {s with client := .exited}
      else some {s with client := .writing (filled line.val),lines := s.lines ++ [line.val]}
    | _ => none
  | .send =>
    match s.client with
    | .writing buf => (cstring buf).map fun text => {s with client := .reading buf,up := s.up ++ text}
    | _ => none
  | .receive count beyond =>
    match s.server with
    | .reading =>
      if Takes count s.up then
        some {s with server := .writing (shown (filled (s.up.take count)) beyond),up := s.up.drop count}
      else none
    | _ => none
  | .answer =>
    match s.server with
    | .writing text => some {s with server := .reading,down := s.down ++ text}
    | _ => none
  | .reply count beyond =>
    match s.client with
    | .reading buf =>
      if Takes count s.down then
        some {s with
          client := .prompt
          down := s.down.drop count
          printed := s.printed ++ [shown (overlay (s.down.take count) buf) beyond]}
      else none
    | _ => none
  | .hangup =>
    if s.client = .exited ∧ s.up = [] ∧ s.server = .reading then some {s with server := .accepting} else none

inductive Stepped (s : State) : Action → State → Prop where
  | quits (here : s.client = .prompt) : Stepped s (.line line) {s with client := .exited}
  | types (here : s.client = .prompt) :
      Stepped s (.line line) {s with client := .writing (filled line.val),lines := s.lines ++ [line.val]}
  | sends (here : s.client = .writing buf) (string : cstring buf = some text) :
      Stepped s .send {s with client := .reading buf,up := s.up ++ text}
  | receives (here : s.server = .reading) (takes : Takes count s.up) :
      Stepped s (.receive count beyond)
        {s with server := .writing (shown (filled (s.up.take count)) beyond),up := s.up.drop count}
  | answers (here : s.server = .writing text) : Stepped s .answer {s with server := .reading,down := s.down ++ text}
  | replies (here : s.client = .reading buf) (takes : Takes count s.down) :
      Stepped s (.reply count beyond)
        {s with
          client := .prompt
          down := s.down.drop count
          printed := s.printed ++ [shown (overlay (s.down.take count) buf) beyond]}
  | hangsUp (here : s.client = .exited) (reading : s.server = .reading) :
      Stepped s .hangup {s with server := .accepting}

theorem step_sound (ran : step s action = some next) : Stepped s action next := by
  cases action with
  | line line =>
    simp only [step] at ran
    split at ran
    · rename_i here
      split at ran
      · cases ran
        exact .quits here
      · cases ran
        exact .types here
    · cases ran
  | send =>
    simp only [step] at ran
    split at ran
    · rename_i buf here
      obtain ⟨text,string,rfl⟩ := Option.map_eq_some_iff.mp ran
      exact .sends here string
    · cases ran
  | receive count beyond =>
    simp only [step] at ran
    split at ran
    · rename_i here
      obtain ⟨takes,rfl⟩ := Option.ite_none_right_eq_some.mp ran |>.imp_right Option.some.inj
      exact .receives here takes
    · cases ran
  | answer =>
    simp only [step] at ran
    split at ran
    · rename_i text here
      cases ran
      exact .answers here
    · cases ran
  | reply count beyond =>
    simp only [step] at ran
    split at ran
    · rename_i buf here
      obtain ⟨takes,rfl⟩ := Option.ite_none_right_eq_some.mp ran |>.imp_right Option.some.inj
      exact .replies here takes
    · cases ran
  | hangup =>
    obtain ⟨⟨here,_,reading⟩,rfl⟩ := Option.ite_none_right_eq_some.mp ran |>.imp_right Option.some.inj
    exact .hangsUp here reading

-- The i-th text that is printed is the i-th line.
def Lockstep (s : State) : Prop := s.printed <+: s.lines

def sent (s : State) : Bytes := s.lines.getLastD []

-- What a reply takes is a beginning of the line just sent.
def Begins (s : State) : Action → Prop
  | .reply count _ => s.down.take count <+: sent s
  | _ => True

def inHand : Server → Bytes
  | .writing text => text
  | _ => []

-- What was sent and has not come back yet.
def owed (s : State) : Bytes := s.down ++ (inHand s.server ++ s.up)

-- A line is sent only when nothing of the ones before is still to come back.
def Settled (s : State) : Action → Prop
  | .send => owed s = []
  | _ => True

def Asks (s : State) (buf : Bytes) : Prop :=
  buf = filled (sent s) ∧ (sent s).length < MAXLINE ∧ s.lines = s.lines.dropLast ++ [sent s] ∧
    s.printed.length = s.lines.dropLast.length

structure Paired (s : State) : Prop where
  client : match s.client with
    | .prompt => s.printed.length = s.lines.length
    | .writing buf => Asks s buf
    | .reading buf => Asks s buf
    | .exited => True
  text : ∀ line ∈ s.lines, 0 ∉ line
  clean : 0 ∉ owed s

theorem filled_string (clean : 0 ∉ text) (short : text.length < MAXLINE) : cstring (filled text) = some text :=
  cstring_cleared short clean

theorem shown_clean (region : Bytes) (beyond : Beyond) : 0 ∉ shown region beyond := by
  unfold shown
  cases found : cstring region with
  | some text => exact (cstring_parts found).1
  | none =>
    have none : 0 ∉ region := by
      rw [← cstring_isSome,found]
      exact Bool.false_ne_true
    rw [Option.getD_none,List.mem_append,not_or]
    exact ⟨none,beyond.property⟩

theorem shown_reply (clean : 0 ∉ line) (short : line.length < MAXLINE) (text : 0 ∉ reply) (beyond : Beyond) :
    shown (overlay reply (filled line)) beyond = line ↔ reply <+: line := by
  constructor
  · intro same
    cases found : cstring (overlay reply (filled line)) with
    | none =>
      rw [shown,found,Option.getD_none,overlay,List.append_assoc] at same
      exact ⟨_,same⟩
    | some string =>
      rw [shown,found,Option.getD_some] at same
      subst same
      obtain ⟨_,rest,region⟩ := cstring_parts found
      rw [overlay] at region
      rcases List.append_eq_append_iff.mp region with ⟨more,front,_⟩ | ⟨more,front,zero⟩
      · exact ⟨more,front.symm⟩
      · cases more with
        | nil => exact ⟨[],by rw [front,List.append_nil,List.append_nil]⟩
        | cons b more =>
          obtain ⟨rfl,_⟩ := List.cons.inj zero
          exact absurd (by rw [front]; simp) text
  · rintro ⟨rest,rfl⟩
    have whole : overlay reply (filled (reply ++ rest)) = filled (reply ++ rest) := by
      simp [overlay,filled]
    rw [whole,shown,filled_string clean short,Option.getD_some]

theorem asks_line {s : State} (line : Line) (even : s.printed.length = s.lines.length) :
    Asks {s with client := client,lines := s.lines ++ [line.val]} (filled line.val) := by
  refine ⟨?_,?_,?_,?_⟩ <;> simp [sent,line.property.1,even]

theorem takes_clean {stream : Bytes} (clean : 0 ∉ stream) (count : Nat) : 0 ∉ stream.take count ∧ 0 ∉ stream.drop count :=
  ⟨fun zero => clean (List.mem_of_mem_take zero),fun zero => clean (List.mem_of_mem_drop zero)⟩

theorem initial_paired : Paired initial := ⟨rfl,by simp [initial],by simp [owed,initial,inHand]⟩

theorem paired_preserved (paired : Paired s) (stepped : Stepped s action next) : Paired next := by
  obtain ⟨client,text,clean⟩ := paired
  have parts : 0 ∉ s.down ∧ 0 ∉ inHand s.server ∧ 0 ∉ s.up := by simpa [owed] using clean
  obtain ⟨down,hand,up⟩ := parts
  cases stepped with
  | quits here => exact ⟨trivial,text,clean⟩
  | types here =>
    rename_i line
    rw [here] at client
    refine ⟨asks_line line client,?_,clean⟩
    exact List.forall_mem_append.mpr ⟨text,List.forall_mem_singleton.mpr line.property.2⟩
  | sends here string =>
    rw [here] at client
    refine ⟨client,text,?_⟩
    have typed := (cstring_parts string).1
    simp [owed,down,hand,up,typed]
  | receives here takes =>
    rename_i count beyond
    refine ⟨client,text,?_⟩
    have later := (takes_clean up count).2
    simp [owed,inHand,down,shown_clean,later]
  | answers here =>
    rename_i held
    rw [here] at hand
    have written : 0 ∉ held := hand
    refine ⟨client,text,?_⟩
    simp [owed,inHand,down,up,written]
  | replies here takes =>
    rename_i buf count beyond
    rw [here] at client
    obtain ⟨_,_,last,even⟩ := client
    refine ⟨?_,text,?_⟩
    · show (s.printed ++ [_]).length = s.lines.length
      rw [List.length_append,even,last]
      simp
    · have later := (takes_clean down count).2
      simp [owed,hand,up,later]
  | hangsUp here reading =>
    refine ⟨client,text,?_⟩
    simp [owed,inHand,down,up]

theorem sent_clean (text : ∀ line ∈ s.lines, 0 ∉ line) (asks : Asks s buf) : 0 ∉ sent s := by
  apply text
  rw [asks.2.2.1]
  exact List.mem_append_right _ List.mem_cons_self

theorem lockstep_reply (good : Lockstep s) (asks : Asks s buf) (text : Bytes) :
    s.printed ++ [text] <+: s.lines ↔ text = sent s := by
  obtain ⟨_,_,last,even⟩ := asks
  have earlier : s.printed = s.lines.dropLast := by
    have front := List.prefix_iff_eq_take.mp good
    rw [front,even,List.length_dropLast,List.dropLast_eq_take]
  rw [earlier,last,List.dropLast_concat,List.prefix_append_right_inj,List.singleton_prefix_cons_iff]

theorem lockstep_step (paired : Paired s) (good : Lockstep s) (stepped : Stepped s action next) :
    Lockstep next ↔ Begins s action := by
  cases stepped with
  | quits here => exact iff_of_true good trivial
  | types here => exact iff_of_true (good.trans (List.prefix_append _ _)) trivial
  | sends here string => exact iff_of_true good trivial
  | receives here takes => exact iff_of_true good trivial
  | answers here => exact iff_of_true good trivial
  | hangsUp here reading => exact iff_of_true good trivial
  | replies here takes =>
    rename_i buf count beyond
    obtain ⟨client,text,clean⟩ := paired
    rw [here] at client
    have asks : Asks s buf := client
    obtain ⟨rfl,short,_⟩ := client
    have down : 0 ∉ s.down := fun zero => clean (List.mem_append_left _ zero)
    have line := sent_clean text asks
    have whole := lockstep_reply good asks (shown (overlay (s.down.take count) (filled (sent s))) beyond)
    have exact_ := shown_reply line short (takes_clean down count).1 beyond
    exact whole.trans exact_

-- Where lines wait for one another, what is owed is what the last one still has
-- to get back.
structure Owing (s : State) : Prop where
  paired : Paired s
  short : (owed s).length < MAXLINE
  answering : ∀ buf, s.client = .reading buf → owed s = sent s

theorem owing_begins (owing : Owing s) (stepped : Stepped s action next) : Begins s action := by
  cases stepped with
  | replies here takes =>
    rename_i buf count beyond
    have answering := owing.answering buf here
    show s.down.take count <+: sent s
    rw [← answering,owed]
    exact (List.take_prefix count s.down).trans (List.prefix_append _ _)
  | _ => trivial

theorem owed_receive (owing : Owing s) (here : s.server = .reading) (count : Nat) (beyond : Beyond) :
    shown (filled (s.up.take count)) beyond = s.up.take count := by
  have whole : owed s = s.down ++ s.up := by rw [owed,here]; rfl
  have up : 0 ∉ s.up := by
    intro zero
    apply owing.paired.clean
    rw [whole]
    exact List.mem_append_right _ zero
  have short : (s.up.take count).length < MAXLINE := by
    have room := owing.short
    rw [whole,List.length_append] at room
    rw [List.length_take]
    omega
  rw [shown,filled_string (takes_clean up count).1 short,Option.getD_some]

theorem owing_server (owing : Owing s) (paired : Paired next) (same : owed next = owed s)
    (client : next.client = s.client) (line : sent next = sent s) : Owing next := by
  refine ⟨paired,?_,?_⟩
  · rw [same]
    exact owing.short
  · intro buf reading
    rw [same,line]
    exact owing.answering buf (client.symm.trans reading)

theorem owing_preserved (owing : Owing s) (settled : Settled s action) (stepped : Stepped s action next) : Owing next := by
  have paired := paired_preserved owing.paired stepped
  cases stepped with
  | quits here => exact ⟨paired,owing.short,nofun⟩
  | types here => exact ⟨paired,owing.short,nofun⟩
  | sends here string =>
    rename_i buf text
    have client := owing.paired.client
    rw [here] at client
    have asks : Asks s buf := client
    obtain ⟨same,short,_⟩ := client
    rw [same,filled_string (sent_clean owing.paired.text asks) short] at string
    cases string
    have back : owed {s with client := .reading buf,up := s.up ++ sent s} = sent s := by
      have added : owed {s with client := .reading buf,up := s.up ++ sent s} = owed s ++ sent s := by simp [owed]
      have nothing : owed s = [] := settled
      rw [added,nothing,List.nil_append]
    refine ⟨paired,?_,fun _ _ => back⟩
    rw [back]
    exact short
  | receives here takes =>
    rename_i count beyond
    refine owing_server owing paired ?_ rfl rfl
    rw [owed_receive owing here,owed,owed,here]
    simp [inHand]
  | answers here =>
    refine owing_server owing paired ?_ rfl rfl
    rw [owed,owed,here]
    simp [inHand]
  | replies here takes =>
    rename_i buf count beyond
    refine ⟨paired,?_,nofun⟩
    have room := owing.short
    simp only [owed,List.length_append,List.length_drop] at room ⊢
    omega
  | hangsUp here reading =>
    refine owing_server owing paired ?_ rfl rfl
    rw [owed,owed,reading]
    rfl

theorem lockstep_exact (ran : run step initial actions = some s) :
    (Always step Lockstep initial actions ↔ Every step Begins initial actions) ∧
      (Every step Settled initial actions → Always step Lockstep initial actions) := by
  have start : Lockstep initial := List.prefix_rfl
  constructor
  · have keeps : ∀ s action next, Paired s → Begins s action → step s action = some next → Paired next :=
      fun s action next paired _ stepped => paired_preserved paired (step_sound stepped)
    have exactly : ∀ s action next, Paired s → Lockstep s → step s action = some next → (Lockstep next ↔ Begins s action) :=
      fun s action next paired good stepped => lockstep_step paired good (step_sound stepped)
    exact always_iff_every keeps exactly initial_paired start ran
  · intro settled
    let Both (s : State) : Prop := Owing s ∧ Lockstep s
    have keeps : ∀ s action next, Both s → Settled s action → step s action = some next → Both next := by
      intro s action next both settled stepped
      have sound := step_sound stepped
      refine ⟨owing_preserved both.1 settled sound,?_⟩
      exact (lockstep_step both.1.paired both.2 sound).mpr (owing_begins both.1 sound)
    have begun : Both initial := ⟨⟨initial_paired,by decide,nofun⟩,start⟩
    exact always_of_preserves keeps (fun s both => both.2) begun settled

def first : Line := ⟨ascii "ab\n",by decide⟩
def second : Line := ⟨ascii "cd\n",by decide⟩
def nothing : Beyond := ⟨[],List.not_mem_nil⟩

def wholeReplies : List Action :=
  [.line first,.send,.receive 3 nothing,.answer,.reply 3 nothing,.line second,.send,.receive 3 nothing,.answer,.reply 3 nothing]
def splitReply : List Action :=
  [.line first,.send,.receive 3 nothing,.answer,.reply 1 nothing,.line second,.send,.receive 3 nothing,.answer,.reply 2 nothing]

theorem lockstep_exact_whole :
    (Always step Lockstep initial wholeReplies ↔ Every step Begins initial wholeReplies) ∧
      (Every step Settled initial wholeReplies → Always step Lockstep initial wholeReplies) := by
  have ends : (run step initial wholeReplies).isSome := by decide
  exact lockstep_exact (Option.some_get ends).symm

theorem reply_shifted :
    (run step initial splitReply).map (fun s => (s.lines,s.printed)) =
      some ([ascii "ab\n",ascii "cd\n"],[ascii "ab\n",ascii "b\n\n"]) ∧
    ¬ Always step Lockstep initial splitReply := by
  have ends : (run step initial splitReply).map (fun s => (s.lines,s.printed)) =
      some ([ascii "ab\n",ascii "cd\n"],[ascii "ab\n",ascii "b\n\n"]) := by decide
  refine ⟨ends,?_⟩
  intro always
  obtain ⟨s,good,same⟩ := always_seen always ends
  obtain ⟨lines,printed⟩ := Prod.mk.inj same
  rw [Lockstep,lines,printed] at good
  exact absurd good (by decide)

end NetworkEx.UdomainEcho
