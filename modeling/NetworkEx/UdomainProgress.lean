import NetworkEx.UdomainEcho

namespace NetworkEx.UdomainProgress
open ByteStreams CText TransitionRuns UdomainEcho
open UdomainServer (MAXLINE filled shown)

def Own : Action → Prop
  | .line _ => False
  | _ => True

def Flowing (s : State) : Prop := ∀ buf, s.client = .reading buf → owed s ≠ []

def Brings (s : State) : Action → Prop
  | .send => sent s ≠ [] ∨ owed s ≠ []
  | _ => True

theorem shown_nonempty (some_ : chunk ≠ []) (clean : 0 ∉ chunk) (beyond : Beyond) : shown (filled chunk) beyond ≠ [] := by
  obtain ⟨b,rest,rfl⟩ := List.exists_cons_of_ne_nil some_
  have whole : filled (b :: rest) = b :: (rest ++ (List.replicate MAXLINE 0).drop (b :: rest).length) := rfl
  unfold shown
  cases found : cstring (filled (b :: rest)) with
  | none =>
    rw [whole,Option.getD_none]
    nofun
  | some text =>
    rintro rfl
    obtain ⟨_,behind,region⟩ := cstring_parts found
    rw [whole] at region
    exact clean (by rw [(List.cons.inj region).1]; exact List.mem_cons_self)

theorem takes_nonempty (takes : Takes count stream) : stream.take count ≠ [] := by
  intro nothing
  have length := congrArg List.length nothing
  rw [List.length_take,List.length_nil] at length
  obtain ⟨some_,_,inside⟩ := takes
  omega

theorem flowing_step (paired : Paired s) (flowing : Flowing s) (stepped : Stepped s action next) :
    Flowing next ↔ Brings s action := by
  have clean : 0 ∉ s.up := fun zero => paired.clean (by simp [owed,zero])
  cases stepped with
  | quits here | types here | replies here => exact iff_of_true (by rintro buf ⟨⟩) trivial
  | hangsUp here reading =>
    refine iff_of_true (fun buf same => ?_) trivial
    cases here.symm.trans same
  | sends here string =>
    rename_i buf text
    have client := paired.client
    rw [here] at client
    have asks : Asks s buf := client
    obtain ⟨same,short,_⟩ := client
    rw [same,filled_string (sent_clean paired.text asks) short] at string
    cases string
    have added : owed {s with client := .reading buf,up := s.up ++ sent s} = owed s ++ sent s := by simp [owed]
    have later : Flowing {s with client := .reading buf,up := s.up ++ sent s} ↔ owed s ++ sent s ≠ [] := by
      rw [← added]
      exact ⟨fun flows => flows buf rfl,fun some_ _ _ => some_⟩
    rw [later,Ne,List.append_eq_nil_iff,not_and_or]
    exact or_comm
  | receives here takes =>
    rename_i count beyond
    refine iff_of_true (fun buf _ => ?_) trivial
    have some_ := shown_nonempty (takes_nonempty takes) (takes_clean clean count).1 beyond
    simp [owed,inHand,some_]
  | answers here =>
    rename_i text
    refine iff_of_true (fun buf waits => ?_) trivial
    have before := flowing buf waits
    rw [owed,here] at before
    simpa [owed,inHand] using before

-- The server holds an answer that is not empty, and has gone over to accept
-- only when the client has left.
structure Going (s : State) : Prop where
  paired : Paired s
  holds : ∀ text, s.server = .writing text → text ≠ []
  ended : s.server = .accepting → s.client = .exited

theorem initial_going : Going initial := ⟨initial_paired,nofun,nofun⟩

theorem going_preserved (going : Going s) (stepped : Stepped s action next) : Going next := by
  have paired := paired_preserved going.paired stepped
  cases stepped with
  | quits here | types here | sends here | replies here =>
    refine ⟨paired,going.holds,fun accepts => ?_⟩
    cases here.symm.trans (going.ended accepts)
  | receives here takes =>
    have clean : 0 ∉ s.up := fun zero => going.paired.clean (by simp [owed,zero])
    refine ⟨paired,?_,by rintro ⟨⟩⟩
    rintro text ⟨⟩
    exact shown_nonempty (takes_nonempty takes) (takes_clean clean _).1 _
  | answers here => exact ⟨paired,by rintro text ⟨⟩,by rintro ⟨⟩⟩
  | hangsUp here reading => exact ⟨paired,by rintro text ⟨⟩,fun _ => here⟩

-- A reply that is there, one that the server holds, or one that it has to read
-- first: in each case the client gets back to its prompt.
theorem reply_run (here : s.client = .reading buf) (some_ : s.down ≠ []) :
    ∃ t, run step s [.reply 1 UdomainEcho.nothing] = some t ∧ t.client = .prompt := by
  have takes : Takes 1 s.down := ⟨by decide,by decide,List.length_pos_iff.mpr some_⟩
  let t : State := {s with
    client := .prompt
    down := s.down.drop 1
    printed := s.printed ++ [shown (overlay (s.down.take 1) buf) UdomainEcho.nothing]}
  exact ⟨t,by simp [run_cons,step,here,takes,t],rfl⟩

theorem answer_run (here : s.client = .reading buf) (holds : s.server = .writing text) (some_ : s.down ++ text ≠ []) :
    ∃ t, run step s [.answer,.reply 1 UdomainEcho.nothing] = some t ∧ t.client = .prompt := by
  have answered : step s .answer = some {s with server := .reading,down := s.down ++ text} := by simp [step,holds]
  rw [run_cons,answered]
  exact reply_run here some_

theorem receive_run (going : Going s) (here : s.client = .reading buf) (idle : s.server = .reading) (some_ : s.up ≠ []) :
    ∃ t, run step s [.receive 1 UdomainEcho.nothing,.answer,.reply 1 UdomainEcho.nothing] = some t ∧ t.client = .prompt := by
  have takes : Takes 1 s.up := ⟨by decide,by decide,List.length_pos_iff.mpr some_⟩
  let next : State := {s with server := .writing (shown (filled (s.up.take 1)) UdomainEcho.nothing),up := s.up.drop 1}
  have received : step s (.receive 1 UdomainEcho.nothing) = some next := by simp [step,idle,takes,next]
  have brought : shown (filled (s.up.take 1)) UdomainEcho.nothing ≠ [] := (going_preserved going (step_sound received)).holds _ rfl
  rw [run_cons,received]
  exact answer_run (s := next) here rfl (by simp [brought])

theorem prompt_reached (going : Going s) (here : s.client = .reading buf) (some_ : owed s ≠ []) :
    ∃ more t, (∀ action ∈ more, Own action) ∧ run step s more = some t ∧ t.client = .prompt := by
  by_cases down : s.down = []
  · cases place : s.server with
    | accepting => cases here.symm.trans (going.ended place)
    | writing text =>
      obtain ⟨t,ran,prompt⟩ := answer_run here place (by simp [going.holds text place])
      exact ⟨_,t,by simp [Own],ran,prompt⟩
    | reading =>
      have up : s.up ≠ [] := by simpa [owed,down,place,inHand] using some_
      obtain ⟨t,ran,prompt⟩ := receive_run going here place up
      exact ⟨_,t,by simp [Own],ran,prompt⟩
  · obtain ⟨t,ran,prompt⟩ := reply_run here down
    exact ⟨_,t,by simp [Own],ran,prompt⟩

-- With nothing under way neither of the two gets any further.
def Wedged (s : State) : Prop := (∃ buf, s.client = .reading buf) ∧ owed s = []

theorem wedged_kept (wedged : Wedged s) (own : Own action) (stepped : Stepped s action next) : Wedged next := by
  obtain ⟨⟨buf,here⟩,nothing⟩ := wedged
  have parts : s.down = [] ∧ inHand s.server = [] ∧ s.up = [] := by simpa [owed] using nothing
  obtain ⟨down,hand,up⟩ := parts
  cases stepped with
  | quits | types => exact own.elim
  | sends other | hangsUp other => cases here.symm.trans other
  | receives reading takes =>
    obtain ⟨some_,_,inside⟩ := takes
    simp only [up,List.length_nil] at inside
    omega
  | replies waits takes =>
    obtain ⟨some_,_,inside⟩ := takes
    simp only [down,List.length_nil] at inside
    omega
  | answers writes =>
    rename_i text
    rw [writes] at hand
    have empty : text = [] := hand
    exact ⟨⟨buf,here⟩,by simp [owed,inHand,down,up,empty]⟩

-- The two get stuck in read exactly where a line without text is sent with
-- nothing else under way; at any other time the client can get back to its prompt
-- without another line.
theorem session_stuck (ran : run step initial actions = some s) :
    (Always step Flowing initial actions ↔ Every step Brings initial actions) ∧
    ∀ buf, s.client = .reading buf →
      (owed s ≠ [] ↔ ∃ more t, (∀ action ∈ more, Own action) ∧ run step s more = some t ∧ t.client = .prompt) := by
  constructor
  · exact always_iff_every (fun _ _ _ going _ ran => going_preserved going (step_sound ran))
      (fun _ _ _ going flowing ran => flowing_step going.paired flowing (step_sound ran)) initial_going nofun ran
  · intro buf here
    have going : Going s := run_invariant (fun _ _ _ going ran => going_preserved going (step_sound ran)) initial_going ran
    refine ⟨prompt_reached going here,?_⟩
    rintro ⟨more,t,own,onward,prompt⟩ nothing
    have wedged : Wedged t :=
      run_allowed (fun _ _ _ wedged mine ran => wedged_kept wedged mine (step_sound ran)) ⟨⟨buf,here⟩,nothing⟩ own onward
    obtain ⟨⟨other,waits⟩,_⟩ := wedged
    cases prompt.symm.trans waits

def atEnd : List Action := [.line ⟨[],by decide⟩,.send]

theorem session_stuck_end : ∃ s, run step initial atEnd = some s ∧ (∃ buf, s.client = .reading buf) ∧
    ¬ ∃ more t, (∀ action ∈ more, Own action) ∧ run step s more = some t ∧ t.client = .prompt := by
  have ends : (run step initial atEnd).map (fun s => (s.client,owed s)) = some (.reading (filled []),[]) := by decide +kernel
  obtain ⟨s,ran,seen⟩ := Option.map_eq_some_iff.mp ends
  obtain ⟨waits,nothing⟩ := Prod.mk.inj seen
  refine ⟨s,ran,⟨_,waits⟩,?_⟩
  rw [← (session_stuck ran).2 _ waits]
  exact fun some_ => some_ nothing

end NetworkEx.UdomainProgress
