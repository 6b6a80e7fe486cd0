import NetworkEx.FileProtocol
import NetworkEx.TransitionRuns

namespace NetworkEx.UploadIsolation
open ByteStreams FileProtocol TransitionRuns

-- A forked child in serv_file_upload, past its open: what its client sends, how
-- far it has stored it, and whether its loop has ended.
structure Upload where
  content : Bytes
  offset : Nat
  ended : Bool

structure State where
  file : Bytes
  uploads : Nat → Option Upload

def start (original : Bytes) (contents : Nat → Option Bytes) : State :=
  ⟨original,fun i => (contents i).map fun content => ⟨content,0,false⟩⟩

-- One turn of a child's loop, a recv of n bytes and the write of them, or the
-- recv that ends the loop, wherever the client was cut off.
inductive Action where
  | turn (i n : Nat)
  | stop (i : Nat)
  deriving DecidableEq

def step (s : State) : Action → Option State
  | .turn i n =>
    (s.uploads i).bind fun u =>
      if u.ended = false ∧ 0 < n ∧ n ≤ MAXLINE ∧ u.offset + n ≤ u.content.length then
        some {
          file := writeAt s.file u.offset ((u.content.drop u.offset).take n),
          uploads := Function.update s.uploads i (some {u with offset := u.offset + n}) }
      else none
  | .stop i =>
    (s.uploads i).bind fun u =>
      if u.ended then none
      else some {s with uploads := Function.update s.uploads i (some {u with ended := true})}

-- The file is as it was, or holds one whole upload and nothing else.
def Intact (original : Bytes) (s : State) : Prop :=
  s.file = original ∨ ∃ i u, s.uploads i = some u ∧ u.offset = u.content.length ∧ s.file = u.content

-- Upload w comes behind every other one: what they store lies at or after its
-- own offset, and not past its end.
def Overtaken (w : Nat) (s : State) : Action → Prop
  | .turn i n => i ≠ w → ∀ u v, s.uploads w = some u → s.uploads i = some v →
      u.offset ≤ v.offset ∧ v.offset + n ≤ u.content.length
  | .stop _ => True

-- Two sets of uploads that differ in their bytes only.
def Alike (original other : Bytes) (contents streams : Nat → Option Bytes) : Prop :=
  original.length = other.length ∧ ∀ i, (contents i).map List.length = (streams i).map List.length

theorem turn_parts (ran : step s (.turn i n) = some next) :
    ∃ u, s.uploads i = some u ∧ u.ended = false ∧ 0 < n ∧ n ≤ MAXLINE ∧ u.offset + n ≤ u.content.length ∧ next = {
      file := writeAt s.file u.offset ((u.content.drop u.offset).take n),
      uploads := Function.update s.uploads i (some {u with offset := u.offset + n}) } := by
  simp only [step,Option.bind_eq_some_iff,Option.ite_none_right_eq_some,Option.some.injEq] at ran
  obtain ⟨u,opened,⟨running,some_,fits,inside⟩,rfl⟩ := ran
  exact ⟨u,opened,running,some_,fits,inside,rfl⟩

theorem stop_parts (ran : step s (.stop i) = some next) :
    ∃ u, s.uploads i = some u ∧ u.ended = false ∧ next = {s with uploads := Function.update s.uploads i (some {u with ended := true})} := by
  simp only [step,Option.bind_eq_some_iff,Option.ite_none_left_eq_some,Option.some.injEq,Bool.not_eq_true] at ran
  obtain ⟨u,opened,running,rfl⟩ := ran
  exact ⟨u,opened,running,rfl⟩

-- One child alone goes through its turns as serv_file_upload does.
theorem upload_turns {pieces : List (Piece MAXLINE)} (opened : s.uploads i = some u) (running : u.ended = false)
    (sent : joined pieces = u.content.drop u.offset) :
    ∃ next, run step s (pieces.map fun piece => .turn i piece.val.length) = some next ∧
      next.file = servUploadLoop s.file u.offset (pieces.map fun piece => (piece,some piece.val.length)) := by
  induction pieces generalizing s u with
  | nil => exact ⟨s,rfl,rfl⟩
  | cons piece rest ih =>
    have lengths := congrArg List.length sent
    simp only [joined_cons,List.length_append,List.length_drop] at lengths
    have here : (u.content.drop u.offset).take piece.val.length = piece.val := by
      rw [← sent,joined_cons,List.take_left]
    have later : joined rest = u.content.drop (u.offset + piece.val.length) := by
      rw [← List.drop_drop,← sent,joined_cons,List.drop_left]
    let after : State := {
      file := writeAt s.file u.offset piece.val,
      uploads := Function.update s.uploads i (some {u with offset := u.offset + piece.val.length}) }
    have stepped : step s (.turn i piece.val.length) = some after := by
      have turned : u.ended = false ∧ 0 < piece.val.length ∧ piece.val.length ≤ MAXLINE ∧
          u.offset + piece.val.length ≤ u.content.length :=
        ⟨running,piece.property.1,piece.property.2,by have := piece.property.1; omega⟩
      simp only [step,opened,Option.bind_some,if_pos turned,here]
      rfl
    have reopened : after.uploads i = some {u with offset := u.offset + piece.val.length} := Function.update_self ..
    obtain ⟨next,ran,stored⟩ := ih reopened running later
    refine ⟨next,by rw [List.map_cons,run_cons,stepped]; exact ran,?_⟩
    rw [stored,List.map_cons,servUploadLoop,List.take_length]

abbrev Owners := List (Option Nat)

def mark (owners : Owners) (s : State) : Action → Owners
  | .turn i n =>
    match s.uploads i with
    | some u => overwrite owners u.offset (List.replicate n (some i))
    | none => owners
  | .stop _ => owners

def tracked : State × Owners → Action → Option (State × Owners) := watched step mark

def begin_ (original : Bytes) (contents : Nat → Option Bytes) : State × Owners :=
  (start original contents,List.replicate original.length none)

def source (original : Bytes) (contents : Nat → Option Bytes) (j : Nat) : Option Nat → Option UInt8
  | none => original[j]?
  | some i => (contents i).bind fun content => content[j]?

structure Sourced (original : Bytes) (contents : Nat → Option Bytes) (p : State × Owners) : Prop where
  same : ∀ i u, p.1.uploads i = some u → contents i = some u.content
  within : ∀ i u, p.1.uploads i = some u → u.offset ≤ u.content.length ∧ u.offset ≤ p.1.file.length
  length : p.2.length = p.1.file.length
  bytes : ∀ j, p.1.file[j]? = (p.2[j]?).bind (source original contents j)

theorem update_cases {uploads : Nat → Option α} {fresh : α} (found : Function.update uploads i (some fresh) k = some v) :
    (k = i ∧ v = fresh) ∨ (k ≠ i ∧ uploads k = some v) := by
  by_cases equal : k = i
  · subst equal
    rw [Function.update_self] at found
    exact .inl ⟨rfl,(Option.some.inj found).symm⟩
  · rw [Function.update_of_ne equal] at found
    exact .inr ⟨equal,found⟩

theorem update_forall {Holds : Nat → α → Prop} {uploads : Nat → Option α} {fresh : α} (here : Holds i fresh)
    (others : ∀ k v, uploads k = some v → Holds k v) : ∀ k v, Function.update uploads i (some fresh) k = some v → Holds k v := by
  intro k v found
  rcases update_cases found with ⟨rfl,rfl⟩ | ⟨_,known⟩
  · exact here
  · exact others k v known

theorem stamped_getElem? {owners : Owners} (inside : offset ≤ owners.length) (i n j : Nat) :
    (overwrite owners offset (List.replicate n (some i)))[j]? =
      if offset ≤ j ∧ j < offset + n then some (some i) else owners[j]? := by
  rw [overwrite_getElem? inside,List.length_replicate]
  split
  · rename_i stored
    rw [List.getElem?_replicate,if_pos (by omega)]
  · rfl

theorem begin_sourced (original : Bytes) (contents : Nat → Option Bytes) :
    Sourced original contents (begin_ original contents) := by
  have opened : ∀ i u, (begin_ original contents).1.uploads i = some u →
      ∃ content, contents i = some content ∧ u = ⟨content,0,false⟩ := by
    intro i u found
    obtain ⟨content,sent,rfl⟩ := Option.map_eq_some_iff.mp found
    exact ⟨content,sent,rfl⟩
  refine ⟨?_,?_,by simp [begin_,start],?_⟩
  · intro i u found
    obtain ⟨content,sent,rfl⟩ := opened i u found
    exact sent
  · intro i u found
    obtain ⟨content,_,rfl⟩ := opened i u found
    exact ⟨Nat.zero_le _,Nat.zero_le _⟩
  · intro j
    by_cases inside : j < original.length
    · simp [begin_,start,source,inside]
    · simp [begin_,start,inside]

theorem sourced_preserved (valid : Sourced original contents before) (moved : tracked before action = some after) :
    Sourced original contents after := by
  obtain ⟨next,owners⟩ := after
  obtain ⟨ran,rfl⟩ := watched_some moved
  cases action with
  | stop i =>
    obtain ⟨u,opened,_,rfl⟩ := stop_parts ran
    exact ⟨update_forall (valid.same i u opened) valid.same,update_forall (valid.within i u opened) valid.within,
      valid.length,valid.bytes⟩
  | turn i n =>
    obtain ⟨u,opened,_,_,_,fits,rfl⟩ := turn_parts ran
    have inside := (valid.within i u opened).2
    have inside_owners : u.offset ≤ before.2.length := by rw [valid.length]; exact inside
    have sent : ((u.content.drop u.offset).take n).length = n := by
      rw [List.length_take,List.length_drop]; omega
    have marked : mark before.2 before.1 (.turn i n) = overwrite before.2 u.offset (List.replicate n (some i)) := by
      simp [mark,opened]
    have length : (writeAt before.1.file u.offset ((u.content.drop u.offset).take n)).length =
        max before.1.file.length (u.offset + n) := by
      rw [writeAt_overwrite inside,overwrite_length inside,sent]
    have others : ∀ k v, before.1.uploads k = some v → v.offset ≤ v.content.length ∧
        v.offset ≤ (writeAt before.1.file u.offset ((u.content.drop u.offset).take n)).length := by
      intro k v known
      obtain ⟨content,reached⟩ := valid.within k v known
      exact ⟨content,by omega⟩
    refine ⟨update_forall (valid.same i u opened) valid.same,update_forall ⟨fits,by simp only; omega⟩ others,?_,?_⟩
    · rw [marked,length,overwrite_length inside_owners,List.length_replicate,valid.length]
    · intro j
      rw [marked,stamped_getElem? inside_owners]
      simp only [writeAt_overwrite inside,overwrite_getElem? inside,sent]
      by_cases stored : u.offset ≤ j ∧ j < u.offset + n
      · rw [if_pos stored,if_pos stored,List.getElem?_take_of_lt (by omega),List.getElem?_drop,
          show u.offset + (j - u.offset) = j by omega]
        simp [source,valid.same i u opened]
      · rw [if_neg stored,if_neg stored]
        exact valid.bytes j

theorem tracked_turn (valid : Sourced original contents before) (moved : tracked before (.turn i n) = some after) :
    ∃ u, before.1.uploads i = some u ∧ 0 < n ∧ u.offset ≤ before.2.length ∧
      after.1.uploads = Function.update before.1.uploads i (some {u with offset := u.offset + n}) ∧
      after.2 = overwrite before.2 u.offset (List.replicate n (some i)) ∧
      after.2.length = max before.2.length (u.offset + n) := by
  obtain ⟨next,owners⟩ := after
  obtain ⟨ran,rfl⟩ := watched_some moved
  obtain ⟨u,opened,_,positive,_,_,rfl⟩ := turn_parts ran
  have inside : u.offset ≤ before.2.length := by rw [valid.length]; exact (valid.within i u opened).2
  have marked : mark before.2 before.1 (.turn i n) = overwrite before.2 u.offset (List.replicate n (some i)) := by
    simp [mark,opened]
  refine ⟨u,opened,positive,inside,rfl,marked,?_⟩
  rw [marked,overwrite_length inside,List.length_replicate]

theorem tracked_stop (moved : tracked before (.stop i) = some after) :
    ∃ u, before.1.uploads i = some u ∧
      after.1.uploads = Function.update before.1.uploads i (some {u with ended := true}) ∧ after.2 = before.2 := by
  obtain ⟨next,owners⟩ := after
  obtain ⟨ran,rfl⟩ := watched_some moved
  obtain ⟨u,opened,_,rfl⟩ := stop_parts ran
  exact ⟨u,opened,rfl,rfl⟩

theorem run_sourced (ran : run tracked (begin_ original contents) actions = some p) : Sourced original contents p :=
  run_invariant (fun _ _ _ valid moved => sourced_preserved valid moved) (begin_sourced original contents) ran

-- Upload w owns everything it has stored so far, and the file does not go past
-- its end.
structure Leads (w : Nat) (content : Bytes) (p : State × Owners) : Prop where
  leader : ∃ u, p.1.uploads w = some u ∧ u.content = content ∧ ∀ j < u.offset, p.2[j]? = some (some w)
  length : p.2.length ≤ content.length

theorem leads_preserved (valid : Sourced original contents before) (leads : Leads w content before)
    (behind : Overtaken w before.1 action) (moved : tracked before action = some after) : Leads w content after := by
  obtain ⟨u,opened,sent,owned⟩ := leads.leader
  cases action with
  | stop i =>
    obtain ⟨v,stopped,uploads,owners⟩ := tracked_stop moved
    refine ⟨?_,by rw [owners]; exact leads.length⟩
    rw [uploads,owners]
    by_cases equal : w = i
    · subst equal
      cases opened.symm.trans stopped
      exact ⟨_,Function.update_self ..,sent,owned⟩
    · exact ⟨u,by rw [Function.update_of_ne equal]; exact opened,sent,owned⟩
  | turn i n =>
    obtain ⟨v,turned,_,inside,uploads,owners,length⟩ := tracked_turn valid moved
    have known := (sourced_preserved valid moved).within
    constructor
    · rw [uploads,owners]
      by_cases equal : w = i
      · subst equal
        cases opened.symm.trans turned
        refine ⟨_,Function.update_self ..,sent,?_⟩
        intro j before_
        rw [stamped_getElem? inside]
        split
        · rfl
        · rename_i outside
          exact owned j (by simp only at before_; omega)
      · refine ⟨u,by rw [Function.update_of_ne equal]; exact opened,sent,?_⟩
        intro j before_
        have order := (behind (Ne.symm equal) u v opened turned).1
        rw [stamped_getElem? inside,if_neg (by omega)]
        exact owned j before_
    · rw [length]
      have fits : v.offset + n ≤ content.length := by
        by_cases equal : w = i
        · subst equal
          cases opened.symm.trans turned
          rw [← sent]
          exact (known w {u with offset := u.offset + n} (by rw [uploads]; exact Function.update_self ..)).1
        · rw [← sent]
          exact (behind (Ne.symm equal) u v opened turned).2
      have := leads.length
      omega

theorem offset_grows (opened : before.1.uploads w = some u) (valid : Sourced original contents before)
    (moved : tracked before action = some after) : ∃ v, after.1.uploads w = some v ∧ u.offset ≤ v.offset := by
  cases action with
  | stop i =>
    obtain ⟨v,stopped,uploads,_⟩ := tracked_stop moved
    rw [uploads]
    by_cases equal : w = i
    · subst equal
      cases opened.symm.trans stopped
      exact ⟨_,Function.update_self ..,Nat.le_refl _⟩
    · exact ⟨u,by rw [Function.update_of_ne equal]; exact opened,Nat.le_refl _⟩
  | turn i n =>
    obtain ⟨v,turned,_,_,uploads,_,_⟩ := tracked_turn valid moved
    rw [uploads]
    by_cases equal : w = i
    · subst equal
      cases opened.symm.trans turned
      exact ⟨_,Function.update_self ..,Nat.le_add_right _ _⟩
    · exact ⟨u,by rw [Function.update_of_ne equal]; exact opened,Nat.le_refl _⟩

theorem grown_preserved (valid : Sourced original contents before) (grown : k ≤ before.2.length)
    (moved : tracked before action = some after) : k ≤ after.2.length := by
  cases action with
  | stop i =>
    obtain ⟨_,_,_,owners⟩ := tracked_stop moved
    rw [owners]; exact grown
  | turn i n =>
    obtain ⟨_,_,_,_,_,_,length⟩ := tracked_turn valid moved
    omega

theorem run_grown (valid : Sourced original contents before) (grown : k ≤ before.2.length)
    (ran : run tracked before actions = some after) : k ≤ after.2.length := by
  let Grown (p : State × Owners) : Prop := k ≤ p.2.length
  have grew : Grown after := run_beside (fun _ _ _ valid moved => sourced_preserved valid moved)
    (fun _ _ _ valid grown moved => grown_preserved valid grown moved) valid grown ran
  exact grew

-- Position j is lost to w: it belongs to another, and w is past it.
def Lost (w j : Nat) (p : State × Owners) : Prop :=
  j < p.2.length ∧ p.2[j]? ≠ some (some w) ∧ ∃ u, p.1.uploads w = some u ∧ j < u.offset

theorem lost_preserved (valid : Sourced original contents before) (lost : Lost w j before)
    (moved : tracked before action = some after) : Lost w j after := by
  obtain ⟨inside,other,u,opened,past⟩ := lost
  obtain ⟨ahead,reopened,onward⟩ := offset_grows opened valid moved
  refine ⟨grown_preserved valid inside moved,?_,ahead,reopened,by omega⟩
  cases action with
  | stop i =>
    obtain ⟨_,_,_,owners⟩ := tracked_stop moved
    rw [owners]; exact other
  | turn i n =>
    obtain ⟨v,turned,_,reach,_,owners,_⟩ := tracked_turn valid moved
    rw [owners,stamped_getElem? reach]
    split
    · rename_i stored
      intro mine
      have same : i = w := by simpa using mine
      subst same
      cases opened.symm.trans turned
      omega
    · exact other

theorem run_lost (valid : Sourced original contents before) (lost : Lost w j before)
    (ran : run tracked before actions = some after) : after.2[j]? ≠ some (some w) := by
  have losing : Lost w j after := run_beside (fun _ _ _ valid moved => sourced_preserved valid moved)
    (fun _ _ _ valid lost moved => lost_preserved valid lost moved) valid lost ran
  exact losing.2.1

theorem leads_owned (leads : Leads w content p) (opened : p.1.uploads w = some u) (finished : u.offset = content.length) :
    p.2 = List.replicate content.length (some w) := by
  obtain ⟨v,found,_,owned⟩ := leads.leader
  cases opened.symm.trans found
  apply List.ext_getElem?
  intro j
  have length := leads.length
  by_cases inside : j < content.length
  · rw [owned j (by omega),List.getElem?_replicate,if_pos inside]
  · rw [List.getElem?_eq_none (by omega),List.getElem?_eq_none (by rw [List.length_replicate]; omega)]

-- Where w owns the file alone in the end, no turn of another stored something
-- that w was already past, or that lies past the end of w.
theorem turn_overtaken (valid : Sourced original contents before) (moved : tracked before (.turn i n) = some after)
    (onward : run tracked after actions = some p) (owned : p.2 = List.replicate content.length (some w))
    (sent : contents w = some content) : Overtaken w before.1 (.turn i n) := by
  have validAfter := sourced_preserved valid moved
  obtain ⟨v,turned,positive,inside,uploads,owners,reach⟩ := tracked_turn valid moved
  have length : p.2.length = content.length := by rw [owned,List.length_replicate]
  have grown := run_grown validAfter (Nat.le_refl _) onward
  intro other leader found opened_w opened_i
  cases turned.symm.trans opened_i
  have same : leader.content = content := Option.some.inj ((valid.same w leader opened_w).symm.trans sent)
  have fits : v.offset + n ≤ content.length := by omega
  refine ⟨?_,by rw [same]; exact fits⟩
  apply Classical.byContradiction
  intro ahead
  have lost : Lost w v.offset after := by
    refine ⟨by omega,?_,leader,?_,by omega⟩
    · rw [owners,stamped_getElem? inside,if_pos (by omega)]
      simpa using other
    · rw [uploads,Function.update_of_ne (Ne.symm other)]; exact opened_w
  apply run_lost validAfter lost onward
  rw [owned,List.getElem?_replicate,if_pos (by omega)]

theorem owned_overtaken (ran : run tracked (begin_ original contents) actions = some p)
    (owned : p.2 = List.replicate content.length (some w)) (sent : contents w = some content) :
    Every step (Overtaken w) (start original contents) actions := by
  apply Classical.byContradiction
  intro fails
  have failsTracked : ¬ Every tracked (fun p => Overtaken w p.1) (begin_ original contents) actions :=
    fun all => fails (watched_every.mp all)
  obtain ⟨first,action,rest,before,rfl,reached,broken⟩ := every_fails failsTracked ran
  rw [run_append,reached,Option.bind_some] at ran
  obtain ⟨after,moved,onward⟩ := run_cons_some ran
  cases action with
  | stop i => exact broken trivial
  | turn i n => exact broken (turn_overtaken (run_sourced reached) moved onward owned sent)

theorem run_leads (ran : run tracked (begin_ original contents) actions = some p) (sent : contents w = some content)
    (covers : original.length ≤ content.length) (behind : Every step (Overtaken w) (start original contents) actions) :
    Leads w content p := by
  let Leading (p : State × Owners) : Prop := Sourced original contents p ∧ Leads w content p
  have keeps : ∀ p action q, Leading p → Overtaken w p.1 action → tracked p action = some q → Leading q :=
    fun p action q ⟨valid,leads⟩ here moved => ⟨sourced_preserved valid moved,leads_preserved valid leads here moved⟩
  have leader : Leads w content (begin_ original contents) := by
    refine ⟨⟨⟨content,0,false⟩,by simp [begin_,start,sent],rfl,?_⟩,by simpa [begin_] using covers⟩
    intro j none_
    exact absurd none_ (Nat.not_lt_zero j)
  have led : Leading p :=
    run_preserves keeps ⟨begin_sourced original contents,leader⟩ (watched_every.mpr behind) ran
  exact led.2

theorem owned_iff (ran : run tracked (begin_ original contents) actions = some p) (opened : p.1.uploads w = some u)
    (finished : u.offset = u.content.length) :
    p.2 = List.replicate u.content.length (some w) ↔
      original.length ≤ u.content.length ∧ Every step (Overtaken w) (start original contents) actions := by
  have sent := (run_sourced ran).same w u opened
  constructor
  · intro owned
    have length : p.2.length = u.content.length := by rw [owned,List.length_replicate]
    have starts : original.length ≤ (begin_ original contents).2.length := by simp [begin_]
    have covered := run_grown (begin_sourced original contents) starts ran
    exact ⟨by omega,owned_overtaken ran owned sent⟩
  · intro ⟨covers,behind⟩
    exact leads_owned (run_leads ran sent covers behind) opened finished

def Touched (j : Nat) (p : State × Owners) : Prop := ∃ k, p.2[j]? = some (some k)

theorem touched_preserved (valid : Sourced original contents before) (touched : Touched j before)
    (moved : tracked before action = some after) : Touched j after := by
  obtain ⟨k,stored⟩ := touched
  cases action with
  | stop i =>
    obtain ⟨_,_,_,same⟩ := tracked_stop moved
    exact ⟨k,by rw [same]; exact stored⟩
  | turn i n =>
    obtain ⟨_,_,_,reach,_,stamped,_⟩ := tracked_turn valid moved
    rw [Touched,stamped,stamped_getElem? reach]
    split
    · exact ⟨i,rfl⟩
    · exact ⟨k,stored⟩

theorem run_touched (valid : Sourced original contents before) (touched : Touched j before)
    (ran : run tracked before actions = some after) : Touched j after :=
  run_beside (fun _ _ _ valid moved => sourced_preserved valid moved)
    (fun _ _ _ valid touched moved => touched_preserved valid touched moved) valid touched ran

theorem untouched_iff (ran : run tracked (begin_ original contents) actions = some p) :
    p.2 = List.replicate original.length none ↔ ∀ i n, Action.turn i n ∉ actions := by
  constructor
  · intro untouched i n member
    obtain ⟨first,rest,rfl⟩ := List.append_of_mem member
    rw [run_append] at ran
    obtain ⟨before,reached,ran⟩ := Option.bind_eq_some_iff.mp ran
    obtain ⟨after,moved,onward⟩ := run_cons_some ran
    have valid := run_sourced reached
    obtain ⟨u,_,positive,inside,_,owners,_⟩ := tracked_turn valid moved
    have starts : Touched u.offset after := by
      refine ⟨i,?_⟩
      rw [owners,stamped_getElem? inside,if_pos (by omega)]
    obtain ⟨k,stored⟩ := run_touched (sourced_preserved valid moved) starts onward
    rw [untouched,List.getElem?_replicate] at stored
    split at stored <;> cases stored
  · intro stops
    let Untouched (q : State × Owners) : Prop := q.2 = List.replicate original.length none
    have keeps : ∀ q action next, Untouched q → (∀ i n, action ≠ Action.turn i n) → tracked q action = some next →
        Untouched next := by
      intro q action next same other moved
      cases action with
      | stop i =>
        obtain ⟨_,_,_,owners⟩ := tracked_stop moved
        exact owners.trans same
      | turn i n => exact absurd rfl (other i n)
    have others : ∀ action ∈ actions, ∀ i n, action ≠ Action.turn i n := by
      intro action member i n turned
      subst turned
      exact stops i n member
    have untouched : Untouched p := run_allowed keeps rfl others ran
    exact untouched

-- The owners are a matter of the schedule: runs of the same turns over other
-- bytes of the same lengths have the same.
def shape (u : Upload) : Nat × Nat × Bool := (u.content.length,u.offset,u.ended)

def Shaped (p q : State × Owners) : Prop := p.2 = q.2 ∧ ∀ i, (p.1.uploads i).map shape = (q.1.uploads i).map shape

theorem shaped_upload (shaped : Shaped p q) (opened : p.1.uploads i = some u) :
    ∃ v, q.1.uploads i = some v ∧ v.content.length = u.content.length ∧ v.offset = u.offset ∧ v.ended = u.ended := by
  have same := shaped.2 i
  rw [opened,Option.map_some,eq_comm,Option.map_eq_some_iff] at same
  obtain ⟨v,found,equal⟩ := same
  simp only [shape,Prod.mk.injEq] at equal
  exact ⟨v,found,equal⟩

theorem shaped_update (shaped : Shaped p q) (same : shape u = shape v) (k : Nat) :
    (Function.update p.1.uploads i (some u) k).map shape = (Function.update q.1.uploads i (some v) k).map shape := by
  by_cases equal : k = i
  · subst equal; simp [same]
  · simpa [Function.update_of_ne equal] using shaped.2 k

theorem shaped_preserved (shaped : Shaped p q) (moved : tracked p action = some next) :
    ∃ after, tracked q action = some after ∧ Shaped next after := by
  obtain ⟨s,owners⟩ := next
  obtain ⟨ran,rfl⟩ := watched_some moved
  cases action with
  | stop i =>
    obtain ⟨u,opened,running,rfl⟩ := stop_parts ran
    obtain ⟨v,found,length,offset,ended⟩ := shaped_upload shaped opened
    have stopped : step q.1 (.stop i) =
        some {q.1 with uploads := Function.update q.1.uploads i (some {v with ended := true})} := by
      simp [step,found,ended,running]
    refine ⟨_,watched_of stopped,shaped.1,?_⟩
    apply shaped_update shaped
    simp [shape,length,offset]
  | turn i n =>
    obtain ⟨u,opened,running,positive,fits,inside,rfl⟩ := turn_parts ran
    obtain ⟨v,found,length,offset,ended⟩ := shaped_upload shaped opened
    have enabled : v.ended = false ∧ 0 < n ∧ n ≤ MAXLINE ∧ v.offset + n ≤ v.content.length :=
      ⟨ended.trans running,positive,fits,by omega⟩
    have turned : step q.1 (.turn i n) = some {
        file := writeAt q.1.file v.offset ((v.content.drop v.offset).take n),
        uploads := Function.update q.1.uploads i (some {v with offset := v.offset + n}) } := by
      simp only [step,found,Option.bind_some,if_pos enabled]
    refine ⟨_,watched_of turned,?_,?_⟩
    · simp [mark,opened,found,offset,shaped.1]
    · apply shaped_update shaped
      simp [shape,length,offset,ended]

theorem alike_run (alike : Alike original other contents streams)
    (ran : run tracked (begin_ original contents) actions = some p) :
    ∃ q, run tracked (begin_ other streams) actions = some q ∧ Shaped p q := by
  have start : Shaped (begin_ original contents) (begin_ other streams) := by
    refine ⟨by simp [begin_,alike.1],?_⟩
    intro i
    have lengths := alike.2 i
    simp only [begin_,start,Option.map_map]
    cases sent : contents i <;> cases other_ : streams i <;> simp [sent,other_,shape] at lengths ⊢
    exact lengths
  have forward : ∀ p q action copy next, Shaped p q → action = copy → tracked p action = some next →
      ∃ after, tracked q copy = some after ∧ Shaped next after := by
    rintro p q action _ next shaped rfl moved
    exact shaped_preserved shaped moved
  exact run_follows forward start (by rw [List.forall₂_eq_eq_eq]) ran

theorem file_untouched (valid : Sourced original contents p) (untouched : p.2 = List.replicate original.length none) :
    p.1.file = original := by
  apply List.ext_getElem?
  intro j
  rw [valid.bytes,untouched,List.getElem?_replicate]
  split
  · rfl
  · rename_i outside
    exact (List.getElem?_eq_none (by omega)).symm

theorem file_owned (valid : Sourced original contents p) (opened : p.1.uploads w = some u)
    (owned : p.2 = List.replicate u.content.length (some w)) : p.1.file = u.content := by
  apply List.ext_getElem?
  intro j
  rw [valid.bytes,owned,List.getElem?_replicate]
  split
  · simp [source,valid.same w u opened]
  · rename_i outside
    exact (List.getElem?_eq_none (by omega)).symm

def spread (owners : Owners) (k : Option Nat) (n : Nat) : Bytes :=
  (List.range n).map fun j => if owners[j]? = some k then 0 else 1

def spreads (owners : Owners) (contents : Nat → Option Bytes) (i : Nat) : Option Bytes :=
  (contents i).map fun content => spread owners (some i) content.length

theorem spread_getElem? (owners : Owners) (k : Option Nat) (n j : Nat) :
    (spread owners k n)[j]? = if j < n then some (if owners[j]? = some k then 0 else 1) else none := by
  by_cases inside : j < n
  · simp [spread,inside]
  · simp [spread,inside]

theorem spread_alike (owners : Owners) (original : Bytes) (contents : Nat → Option Bytes) :
    Alike original (spread owners none original.length) contents (spreads owners contents) := by
  refine ⟨by simp [spread],?_⟩
  intro i
  simp [spreads,spread,Function.comp_def]

theorem spread_zero (valid : Sourced (spread owners none n) (spreads owners contents) (s,owners)) :
    ∀ b ∈ s.file, b = 0 := by
  intro b member
  obtain ⟨j,inside,rfl⟩ := List.getElem_of_mem member
  have shown := valid.bytes j
  rw [List.getElem?_eq_getElem inside,eq_comm,Option.bind_eq_some_iff] at shown
  obtain ⟨k,owner,byte⟩ := shown
  simp only at owner
  cases k with
  | none =>
    simp only [source,spread_getElem?,owner,if_true,Option.ite_none_right_eq_some,Option.some.injEq] at byte
    exact byte.2.symm
  | some i =>
    simp only [source,spreads,Option.bind_eq_some_iff,Option.map_eq_some_iff] at byte
    obtain ⟨_,⟨content,_,rfl⟩,found⟩ := byte
    simp only [spread_getElem?,owner,if_true,Option.ite_none_right_eq_some,Option.some.injEq] at found
    exact found.2.symm

theorem spread_owner (zero : ∀ b ∈ spread owners k n, b = 0) (length : owners.length = n) :
    owners = List.replicate n k := by
  refine List.eq_replicate_iff.mpr ⟨length,?_⟩
  intro owner member
  obtain ⟨j,inside,rfl⟩ := List.getElem_of_mem member
  have byte := spread_getElem? owners k n j
  rw [if_pos (by omega)] at byte
  have low := zero _ (List.mem_of_getElem? byte)
  rw [List.getElem?_eq_getElem inside] at low
  simpa using low

-- A schedule keeps every set of uploads apart exactly when nothing is stored,
-- or one finished upload, no shorter than the original, comes last everywhere.
theorem uploads_isolated (ran : run step (start original contents) actions = some final) :
    (∀ other streams last, Alike original other contents streams →
      run step (start other streams) actions = some last → Intact other last) ↔
    (∀ i n, Action.turn i n ∉ actions) ∨
    ∃ w u, final.uploads w = some u ∧ u.offset = u.content.length ∧ original.length ≤ u.content.length ∧
      Every step (Overtaken w) (start original contents) actions := by
  obtain ⟨owners,watching⟩ : ∃ owners, run tracked (begin_ original contents) actions = some (final,owners) :=
    watched_run ran
  constructor
  · intro intact
    obtain ⟨⟨last,_⟩,other,shaped⟩ := alike_run (spread_alike owners original contents) watching
    obtain ⟨rfl,uploads⟩ := shaped
    have valid := run_sourced other
    have zero := spread_zero valid
    have length := valid.length
    rcases intact _ _ last (spread_alike owners original contents) (watched_forget other) with kept | ⟨w,v,opened,finished,stored⟩
    · left
      rw [kept] at zero length
      have untouched := spread_owner zero (by simpa [spread] using length)
      exact (untouched_iff watching).mp untouched
    · right
      have back : Shaped (last,owners) (final,owners) := ⟨rfl,fun i => (uploads i).symm⟩
      obtain ⟨u,found,sized,offset,_⟩ := shaped_upload back opened
      obtain ⟨content,_,sent⟩ := Option.map_eq_some_iff.mp (valid.same w v opened)
      rw [stored] at zero length
      have same : v.content.length = content.length := by rw [← sent]; simp [spread]
      rw [← sent] at zero
      have owned := spread_owner zero (by rw [← same]; exact length)
      have done : u.offset = u.content.length := by omega
      rw [← same,← sized] at owned
      exact ⟨w,u,found,done,(owned_iff watching found done).mp owned⟩
  · intro condition other streams last alike otherRan
    obtain ⟨marks,tracking⟩ : ∃ marks, run tracked (begin_ other streams) actions = some (last,marks) :=
      watched_run otherRan
    obtain ⟨q,reached,shaped⟩ := alike_run alike watching
    cases tracking.symm.trans reached
    obtain ⟨same,_⟩ := id shaped
    simp only at same
    subst same
    rcases condition with stops | ⟨w,u,opened,finished,covers⟩
    · left
      exact file_untouched (run_sourced tracking) ((untouched_iff tracking).mpr stops)
    · right
      obtain ⟨v,found,sized,offset,_⟩ := shaped_upload shaped opened
      have owned := (owned_iff watching opened finished).mpr covers
      exact ⟨w,v,found,by omega,file_owned (run_sourced tracking) found (by rw [sized]; exact owned)⟩

def twoUploads (i : Nat) : Option Bytes := if i = 0 then some [1,1] else if i = 1 then some [2,2] else none

theorem uploads_isolated_serial : ∃ final,
    run step (start [] twoUploads) [.turn 0 2,.stop 0,.turn 1 2,.stop 1] = some final ∧
    ((∀ other streams last, Alike [] other twoUploads streams →
      run step (start other streams) [.turn 0 2,.stop 0,.turn 1 2,.stop 1] = some last → Intact other last) ↔
    (∀ i n, Action.turn i n ∉ [.turn 0 2,.stop 0,.turn 1 2,.stop 1]) ∨
    ∃ w u, final.uploads w = some u ∧ u.offset = u.content.length ∧ 0 ≤ u.content.length ∧
      Every step (Overtaken w) (start [] twoUploads) [.turn 0 2,.stop 0,.turn 1 2,.stop 1]) := by
  have ends : (run step (start [] twoUploads) [.turn 0 2,.stop 0,.turn 1 2,.stop 1]).isSome := by decide
  obtain ⟨final,ran⟩ := Option.isSome_iff_exists.mp ends
  exact ⟨final,ran,uploads_isolated ran⟩

theorem interleaved_uploads_mix :
    (∃ last, run step (start [] twoUploads) [.turn 0 1,.turn 1 2,.turn 0 1,.stop 0,.stop 1] = some last ∧
      last.file = [2,1] ∧ (∀ i u, last.uploads i = some u → u.ended = true) ∧ ¬ Intact [] last) ∧
    (run step (start [5,5] twoUploads) [.turn 0 1,.stop 0]).map State.file = some [1,5] := by
  refine ⟨?_,by decide⟩
  have ends : (run step (start [] twoUploads) [.turn 0 1,.turn 1 2,.turn 0 1,.stop 0,.stop 1]).map
      (fun s => (s.file,(s.uploads 0).map Upload.ended,(s.uploads 1).map Upload.ended)) =
        some ([2,1],some true,some true) := by decide
  obtain ⟨last,ran,shown⟩ := Option.map_eq_some_iff.mp ends
  simp only [Prod.mk.injEq] at shown
  obtain ⟨file,first,second⟩ := shown
  obtain ⟨owners,tracking⟩ : ∃ owners, run tracked (begin_ [] twoUploads)
      [.turn 0 1,.turn 1 2,.turn 0 1,.stop 0,.stop 1] = some (last,owners) := watched_run ran
  have sent : ∀ i u, last.uploads i = some u → (i = 0 ∧ u.content = [1,1]) ∨ (i = 1 ∧ u.content = [2,2]) := by
    intro i u opened
    have same := (run_sourced tracking).same i u opened
    unfold twoUploads at same
    split at same
    · rename_i zero; exact .inl ⟨zero,(Option.some.inj same).symm⟩
    · split at same
      · rename_i one; exact .inr ⟨one,(Option.some.inj same).symm⟩
      · cases same
  refine ⟨last,ran,file,?_,?_⟩
  · intro i u opened
    rcases sent i u opened with ⟨rfl,_⟩ | ⟨rfl,_⟩
    · simpa [opened] using first
    · simpa [opened] using second
  · intro intact
    rcases intact with kept | ⟨i,u,opened,_,stored⟩
    · rw [file] at kept; cases kept
    · rw [file] at stored
      rcases sent i u opened with ⟨_,content⟩ | ⟨_,content⟩ <;> rw [content] at stored <;> cases stored

end NetworkEx.UploadIsolation
