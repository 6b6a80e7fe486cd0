import NetworkEx.RtsChat

namespace NetworkEx.RtsFidelity
open ByteStreams CText ChatSockets TransitionRuns RtsChat

def greeting (fd : Nat) (bytes : Bytes) : Bytes := ascii "user name (" ++ decimal fd ++ ascii ") " ++ bytes

-- The buffer of send_chat_msg up to where strlen comes to its end.
def strung (text : Bytes) : Option Bytes := cstring (overlay text (List.replicate (MAXLINE + 24) 0))

-- One read of `chunk` from fd: the text fits its buffer and is the whole of what
-- was received, and the loop after it writes it to each registered client. What
-- write answers at each slot is the kernel's choice.
structure Faithful (listenfd : Nat) (s : State) (fd : Nat) (chunk : Bytes) (answers : Nat → Answer) : Prop where
  formatted : (chatText fd chunk).bind (fun printed => strung printed.2) = some (greeting fd chunk)
  relayed : ∃ after, run (step listenfd) s (.take none :: turns answers 0 (maxClients+1)) = some after ∧
    after.writes = s.writes ++
      (addressees (fun k => s.userFds k = 1) s.conns 0 maxClients).map fun k => (k,greeting fd chunk)

-- Main is about to serve the signal of fd, whose read will bring `chunk`.
structure Signalled (listenfd : Nat) (s : State) (fd : Nat) (chunk : Bytes) : Prop where
  waiting : s.pc = .wait
  head : ∃ rest, s.signals = fd :: rest
  other : fd ≠ listenfd
  data : ∃ c, s.conns fd = some c ∧ c.read = .data chunk

theorem chatText_parts (printed : chatText fd chunk = some (msg,text)) :
    received chunk = some msg ∧ text = greeting fd msg ∧ text.length < MAXLINE + 24 := by
  simp only [chatText,Option.bind_eq_bind,Option.bind_eq_some_iff,pure,Option.some.injEq,Prod.mk.injEq] at printed
  obtain ⟨found,isString,shown,fits,rfl,rfl⟩ := printed
  obtain ⟨same,room⟩ := sprintf_parts fits
  exact ⟨isString,same,by rw [same]; exact room⟩

theorem greeting_clean (clean : 0 ∉ msg) (fd : Nat) : 0 ∉ greeting fd msg := by
  have literals : (0 : UInt8) ∉ ascii "user name (" ∧ (0 : UInt8) ∉ ascii ") " := by decide
  simp [greeting,decimal_clean,literals,clean]

theorem strung_text (printed : chatText fd chunk = some (msg,text)) : strung text = some text := by
  obtain ⟨isString,shown,room⟩ := chatText_parts printed
  refine cstring_cleared room ?_
  rw [shown]
  exact greeting_clean (cstring_parts isString).1 fd

theorem formatted_exact (small : fd < 2 ^ 31) (fits : chunk.length ≤ MAXLINE) :
    (chatText fd chunk).bind (fun printed => strung printed.2) = some (greeting fd chunk) ↔
      chunk.length < MAXLINE ∧ 0 ∉ chunk := by
  constructor
  · intro formatted
    obtain ⟨⟨msg,text⟩,printed,same⟩ := Option.bind_eq_some_iff.mp formatted
    obtain ⟨isString,shown,_⟩ := chatText_parts printed
    have texts : text = greeting fd chunk := Option.some.inj ((strung_text printed).symm.trans same)
    have whole : msg = chunk := List.append_cancel_left (shown.symm.trans texts)
    subst whole
    have clean : 0 ∉ msg := (cstring_parts isString).1
    have ended : (received msg).isSome := by rw [isString]; rfl
    exact ⟨((received_isSome msg).mp ended).resolve_right clean,clean⟩
  · intro both
    obtain ⟨short,clean⟩ := both
    obtain ⟨pair,printed⟩ := Option.isSome_iff_exists.mp ((chatText_isSome small fits).mpr (.inl short))
    obtain ⟨msg,text⟩ := pair
    obtain ⟨isString,shown,_⟩ := chatText_parts printed
    have whole : msg = chunk := Option.some.inj (isString.symm.trans (received_short short clean))
    rw [printed,Option.bind_some,strung_text printed,shown,whole]

theorem killed_stops (dead : s.pc = .killed) (n : Nat) : run (step listenfd) s (turns answers i (n+1)) = none := by
  have stopped : step listenfd s (.write (answers i)) = none := by simp only [step,dead]
  rw [turns_succ,run_cons,stopped,Option.bind_none]

-- A turn goes on with at most one write, of the part of the text that the
-- kernel's answer says, to a connection that was not reset.
theorem turn_wrote (looping : s.pc = .broadcast fd msg text i) (inside : i < maxClients)
    (moved : step listenfd s (.write answer) = some next) :
    next.pc = .killed ∨ (next.pc = .broadcast fd msg text (i+1) ∧ next.conns = s.conns ∧
      ∃ here, next.writes = s.writes ++ here ∧ ∀ k bytes, (k,bytes) ∈ here → k = i ∧ ∃ c m, s.conns k = some c ∧
        c.failed = false ∧ answer = .took m ∧ m ≤ text.length ∧ bytes = text.take m) := by
  cases step_sound moved with
  | skips there | misses there | refuses there =>
    cases looping.symm.trans there
    exact .inr ⟨rfl,rfl,[],by simp,by simp⟩
  | breaks there => exact .inl rfl
  | writes there within member opened whole fits =>
    cases looping.symm.trans there
    refine .inr ⟨rfl,rfl,_,rfl,?_⟩
    intro k bytes found
    cases List.mem_singleton.mp found
    exact ⟨rfl,_,_,opened,whole,rfl,fits,rfl⟩
  | finishes there outside =>
    cases looping.symm.trans there
    exact absurd inside outside

theorem turns_wrote (looping : s.pc = .broadcast fd msg text i) (ends : i + n = maxClients)
    (ran : run (step listenfd) s (turns answers i (n+1)) = some after) : ∃ more, after.writes = s.writes ++ more ∧
      ∀ k bytes, (k,bytes) ∈ more → ∃ c m, s.conns k = some c ∧ c.failed = false ∧
        answers k = .took m ∧ m ≤ text.length ∧ bytes = text.take m := by
  induction n generalizing s i with
  | zero =>
    rw [turns_succ,run_cons,write_step looping,writeTurn,if_neg (show ¬ i < maxClients by omega)] at ran
    cases ran
    exact ⟨[],by simp,by simp⟩
  | succ n ih =>
    rw [turns_succ] at ran
    obtain ⟨next,moved,onward⟩ := run_cons_some ran
    rcases turn_wrote looping (by omega) moved with dead | ⟨still,conns,here,grown,parts⟩
    · rw [killed_stops dead n] at onward
      cases onward
    · obtain ⟨more,wrote,rest⟩ := ih still (by omega) onward
      refine ⟨here ++ more,by rw [wrote,grown,List.append_assoc],?_⟩
      intro k bytes found
      rcases List.mem_append.mp found with first | later
      · obtain ⟨rfl,part⟩ := parts k bytes first
        exact part
      · rw [← conns]
        exact rest k bytes later

theorem take_step (signalled : Signalled listenfd s fd chunk) (printed : chatText fd chunk = some (msg,text)) :
    ∃ mid, step listenfd s (.take none) = some mid ∧ mid.pc = .broadcast fd msg text 0 ∧ mid.userFds = s.userFds ∧
      mid.writes = s.writes ∧ ∀ k, (mid.conns k).map (fun c => c.failed) = (s.conns k).map fun c => c.failed := by
  obtain ⟨waiting,⟨rest,head⟩,other,c,opened,data⟩ := signalled
  refine ⟨_,step_complete (.reads waiting head other opened data printed),rfl,rfl,rfl,?_⟩
  intro k
  by_cases same : k = fd
  · simp [same,opened,Conn.afterRead]
  · simp [Function.update_of_ne same]

theorem same_failed {mid s : State} (same : ∀ k, (mid.conns k).map (fun c => c.failed) = (s.conns k).map fun c => c.failed)
    (found : mid.conns k = some c) : ∃ d, s.conns k = some d ∧ d.failed = c.failed := by
  have here := same k
  rw [found,Option.map_some] at here
  exact Option.map_eq_some_iff.mp here.symm

theorem takes_same {mid s : State} (table : mid.userFds = s.userFds)
    (same : ∀ k, (mid.conns k).map (fun c => c.failed) = (s.conns k).map fun c => c.failed) (takes : Takes s answers n) :
    Takes mid answers n := by
  intro k c inside member found
  obtain ⟨d,opened,failed⟩ := same_failed same found
  rw [table] at member
  obtain ⟨well,took⟩ := takes k d inside member opened
  exact ⟨failed.symm.trans well,took⟩

theorem relayed_exact (signalled : Signalled listenfd s fd chunk) (printed : chatText fd chunk = some (msg,greeting fd chunk)) :
    (∃ after, run (step listenfd) s (.take none :: turns answers 0 (maxClients+1)) = some after ∧
      after.writes = s.writes ++
        (addressees (fun k => s.userFds k = 1) s.conns 0 maxClients).map fun k => (k,greeting fd chunk)) ↔
      Takes s answers (greeting fd chunk).length := by
  obtain ⟨mid,taken,looping,table,writes,conns⟩ := take_step signalled printed
  rw [run_cons,taken,Option.bind_some]
  constructor
  · intro relayed k c within member opened
    obtain ⟨after,ran,wrote⟩ := relayed
    obtain ⟨more,grown,parts⟩ := turns_wrote looping (Nat.zero_add maxClients) ran
    have all := List.append_cancel_left ((writes ▸ grown).symm.trans wrote)
    have reached : k ∈ addressees (fun k => s.userFds k = 1) s.conns 0 maxClients := by
      simp [addressees,within,member,opened]
    obtain ⟨d,m,found,well,took,fits,same⟩ := parts k _ (by rw [all]; exact List.mem_map_of_mem reached)
    have back : ∀ k, (s.conns k).map (fun c => c.failed) = (mid.conns k).map fun c => c.failed := fun k => (conns k).symm
    obtain ⟨e,there,failed⟩ := same_failed back opened
    cases found.symm.trans there
    have long := congrArg List.length same
    rw [List.length_take,Nat.min_eq_left fits] at long
    exact ⟨failed.symm.trans well,by rw [took,long]⟩
  · intro takes
    refine ⟨_,sendChatMsg_run (takes_same table conns takes) looping (Nat.zero_add maxClients),?_⟩
    have opened : ∀ k, (mid.conns k).isSome = (s.conns k).isSome := by
      intro k
      have both := congrArg Option.isSome (conns k)
      rwa [Option.isSome_map,Option.isSome_map] at both
    simp only [writes,table,addressees,opened]

theorem read_whole (signalled : Signalled listenfd s fd chunk) : chunk.length ≤ MAXLINE := by
  obtain ⟨c,_,data⟩ := signalled.data
  exact read_length data

theorem faithful_exact (small : fd < 2 ^ 31) (signalled : Signalled listenfd s fd chunk) :
    Faithful listenfd s fd chunk answers ↔
      chunk.length < MAXLINE ∧ 0 ∉ chunk ∧ Takes s answers (greeting fd chunk).length := by
  have exact_ := formatted_exact small (read_whole signalled)
  rw [← and_assoc,← exact_]
  constructor
  · intro faithful
    obtain ⟨formatted,relayed⟩ := faithful
    obtain ⟨⟨msg,text⟩,printed,same⟩ := Option.bind_eq_some_iff.mp formatted
    have texts : text = greeting fd chunk := Option.some.inj ((strung_text printed).symm.trans same)
    exact ⟨formatted,(relayed_exact signalled (texts ▸ printed)).mp relayed⟩
  · intro both
    obtain ⟨formatted,takes⟩ := both
    obtain ⟨⟨msg,text⟩,printed,same⟩ := Option.bind_eq_some_iff.mp formatted
    have texts : text = greeting fd chunk := Option.some.inj ((strung_text printed).symm.trans same)
    exact ⟨formatted,(relayed_exact signalled (texts ▸ printed)).mpr takes⟩

def talker (chunk : Bytes) : Client := ⟨⟨chunk,false,false⟩,true,true,chunk,[]⟩

def talking (chunk : Bytes) : State :=
  {initial with
    pc := .wait,listenArmed := true,signals := [4],userFds := Function.update (fun _ => 0) 4 1,
    conns := Function.update (fun _ => none) 4 (some (talker chunk))}

theorem talking_open (chunk : Bytes) : (talking chunk).conns k = some c ↔ k = 4 ∧ c = talker chunk := by
  by_cases same : k = 4
  · simp [talking,same,eq_comm]
  · simp [talking,same]

theorem talking_signalled (present : chunk ≠ []) (fits : chunk.length ≤ MAXLINE) : Signalled 3 (talking chunk) 4 chunk := by
  refine ⟨rfl,⟨[],rfl⟩,by decide,talker chunk,(talking_open chunk).mpr ⟨rfl,rfl⟩,?_⟩
  simp [talker,Conn.read,present,List.take_of_length_le fits]

theorem faithful_exact_hi : Faithful 3 (talking (ascii "hi\n")) 4 (ascii "hi\n") fun _ => .took 17 := by
  have signalled : Signalled 3 (talking (ascii "hi\n")) 4 (ascii "hi\n") := talking_signalled (by decide) (by decide)
  have long : (greeting 4 (ascii "hi\n")).length = 17 := by decide
  refine (faithful_exact (by decide) signalled).mpr ⟨by decide,by decide,?_⟩
  intro k c _ _ opened
  rw [((talking_open _).mp opened).2]
  exact ⟨rfl,by rw [long]⟩

theorem message_cut :
    (Signalled 3 (talking [104,0,105]) 4 [104,0,105] ∧
      ∀ answers, ¬ Faithful 3 (talking [104,0,105]) 4 [104,0,105] answers) ∧
    Signalled 3 (talking (List.replicate 1024 97)) 4 (List.replicate 1024 97) ∧
      ∀ answers, ¬ Faithful 3 (talking (List.replicate 1024 97)) 4 (List.replicate 1024 97) answers := by
  have full : (List.replicate 1024 (97 : UInt8)).length = MAXLINE := List.length_replicate
  refine ⟨⟨talking_signalled (by decide) (by decide),?_⟩,talking_signalled ?_ (Nat.le_of_eq full),?_⟩
  · intro answers faithful
    have clean := (formatted_exact (by decide) (by decide)).mp faithful.formatted
    exact absurd clean.2 (by decide)
  · intro empty
    rw [empty] at full
    cases full
  · intro answers faithful
    have short := (formatted_exact (by decide) (Nat.le_of_eq full)).mp faithful.formatted
    exact absurd short.1 (by rw [full]; exact Nat.lt_irrefl _)

end NetworkEx.RtsFidelity
