import NetworkEx.FileConfinement
import NetworkEx.UploadIsolation

namespace NetworkEx.FileTraffic
open ByteStreams CText PathResolution FileProtocol FileAgreement FileConfinement TransitionRuns
open UploadIsolation (update_cases update_forall)

-- Where the loop of a child's handler stands: it ended on a zero of recv or
-- read, or broke off at a negative result. A handler that has opened the
-- database returns.
inductive Phase where
  | looping
  | ended
  | broken
  | returned
  deriving DecidableEq

-- A forked child behind the recv of its query. `child` has what the kernel has
-- answered to it so far, `place` the file it has open, none where it opened none.
structure Task where
  child : Child
  place : Option Location
  offset : Nat
  phase : Phase

structure State where
  disk : Disk
  tasks : Nat → Option Task

def start (disk : Disk) : State := ⟨disk,fun _ => none⟩

def uploads (child : Child) : Bool :=
  match asked child with
  | .upload _ => true
  | _ => false

def nameless (child : Child) : Bool :=
  decide (child.query ≠ []) && match asked child with
    | .upload none | .download none => true
    | _ => false

-- The child comes to sqlite3_open: serv_file_upload behind its loop, and
-- serv_file_list at once.
def catalogues (t : Task) : Bool :=
  match asked t.child with
  | .upload _ => t.place.isSome && (t.phase = .ended || t.phase = .broken)
  | .list => t.child.query ≠ [] && t.phase = .looping
  | _ => false

-- accept, fork and the recv of the query are one step, and so is the open. One
-- turn of a loop is a recv with its write, or a read with its send. sqlite3_open
-- creates a missing mydb.db, empty, where it can.
inductive Action where
  | fork (i : Nat) (stack query : Bytes) (garbage : Int)
  | recv (i : Nat) (piece : Piece MAXLINE) (answer : Option Nat)
  | recvLast (i : Nat) (failed : Bool)
  | read (i : Nat) (piece : Piece MAXLINE) (answer : Int)
  | readLast (i : Nat)
  | sqlite3_open (i : Nat) (creates : Bool)

def begun (server : Server) (disk : Disk) (child : Child) : Task := ⟨child,opened server disk child,0,.looping⟩

def received (t : Task) (piece : Piece MAXLINE) (answer : Option Nat) : Task :=
  {t with
    child := {t.child with recvs := t.child.recvs ++ [(piece,answer)]},
    offset := t.offset + answer.getD 0,
    phase := if answer = none then .broken else .looping}

def fetched (t : Task) (piece : Piece MAXLINE) (answer : Int) : Task :=
  {t with
    child := {t.child with sends := t.child.sends ++ [(piece,answer)]},
    offset := t.offset + piece.val.length,
    phase := if answer < 0 then .broken else .looping}

def State.put (s : State) (i : Nat) (t : Task) : State := {s with tasks := Function.update s.tasks i (some t)}

def State.store (s : State) (place : Location) (file : Bytes) : State :=
  {s with disk := Function.update s.disk place (some file)}

def running (s : State) (i : Nat) : Option (Task × Location × Bytes) := do
  let t ← s.tasks i
  let place ← t.place
  let file ← s.disk place
  if t.phase = .looping then some (t,place,file) else none

def written (s : State) (place : Location) (file : Bytes) (offset : Nat) (piece : Piece MAXLINE) : Option Nat → State
  | none => s
  | some writen => s.store place (writeAt file offset (piece.val.take writen))

def step (server : Server) (s : State) : Action → Option State
  | .fork i stack query garbage =>
    let child : Child := ⟨stack,query,[],garbage,[]⟩
    if (s.tasks i).isSome ∨ nameless child then none else some (s.put i (begun server s.disk child))
  | .recv i piece answer =>
    (running s i).bind fun (t,place,file) =>
      if uploads t.child ∧ answer.getD 0 ≤ piece.val.length then
        some ((written s place file t.offset piece answer).put i (received t piece answer))
      else none
  | .recvLast i failed =>
    (running s i).bind fun (t,_,_) =>
      if uploads t.child then some (s.put i {t with phase := if failed then .broken else .ended}) else none
  | .read i piece answer =>
    (running s i).bind fun (t,_,file) =>
      if uploads t.child = false ∧ (file.drop t.offset).take piece.val.length = piece.val ∧ answer ≤ piece.val.length then
        some (s.put i (fetched t piece answer))
      else none
  | .readLast i =>
    (running s i).bind fun (t,_,file) =>
      if uploads t.child = false ∧ file.length ≤ t.offset then some (s.put i {t with phase := .ended}) else none

  | .sqlite3_open i creates =>
    (s.tasks i).bind fun t =>
      if catalogues t then
        let opened := if creates && (s.disk (server.place database)).isNone then s.store (server.place database) [] else s
        some (opened.put i {t with phase := .returned})
      else none

inductive Stepped (server : Server) : State → Action → State → Prop where
  | forks (fresh : s.tasks i = none) (named : nameless ⟨stack,query,[],garbage,[]⟩ = false) :
      Stepped server s (.fork i stack query garbage) (s.put i (begun server s.disk ⟨stack,query,[],garbage,[]⟩))
  | stores (here : running s i = some (t,place,file)) (writer : uploads t.child = true) (fits : writen ≤ piece.val.length) :
      Stepped server s (.recv i piece (some writen))
        ((s.store place (writeAt file t.offset (piece.val.take writen))).put i (received t piece (some writen)))
  | breaks (here : running s i = some (t,place,file)) (writer : uploads t.child = true) :
      Stepped server s (.recv i piece none) (s.put i (received t piece none))
  | stops (here : running s i = some (t,place,file)) (writer : uploads t.child = true) :
      Stepped server s (.recvLast i failed) (s.put i {t with phase := if failed then .broken else .ended})
  | reads (here : running s i = some (t,place,file)) (reader : uploads t.child = false)
      (front : (file.drop t.offset).take piece.val.length = piece.val) (fits : answer ≤ piece.val.length) :
      Stepped server s (.read i piece answer) (s.put i (fetched t piece answer))
  | finishes (here : running s i = some (t,place,file)) (reader : uploads t.child = false) (past : file.length ≤ t.offset) :
      Stepped server s (.readLast i) (s.put i {t with phase := .ended})
  | catalogues (there : s.tasks i = some t) (last : catalogues t = true) :
      Stepped server s (.sqlite3_open i creates) (s.put i {t with phase := .returned})
  | creates (there : s.tasks i = some t) (last : catalogues t = true) (absent : s.disk (server.place database) = none) :
      Stepped server s (.sqlite3_open i true) ((s.store (server.place database) []).put i {t with phase := .returned})

theorem step_sound (ran : step server s action = some next) : Stepped server s action next := by
  cases action with
  | fork i stack query garbage =>
    simp only [step,Option.ite_none_left_eq_some,Option.some.injEq,not_or,Bool.not_eq_true,Option.isSome_eq_false_iff,
      Option.isNone_iff_eq_none] at ran
    obtain ⟨⟨fresh,named⟩,rfl⟩ := ran
    exact .forks fresh named
  | recv i piece answer =>
    simp only [step,Option.bind_eq_some_iff,Option.ite_none_right_eq_some,Option.some.injEq] at ran
    obtain ⟨⟨t,place,file⟩,here,⟨writer,fits⟩,rfl⟩ := ran
    cases answer with
    | none => exact .breaks here writer
    | some writen => exact .stores here writer fits
  | recvLast i failed =>
    simp only [step,Option.bind_eq_some_iff,Option.ite_none_right_eq_some,Option.some.injEq] at ran
    obtain ⟨⟨t,place,file⟩,here,writer,rfl⟩ := ran
    exact .stops here writer
  | read i piece answer =>
    simp only [step,Option.bind_eq_some_iff,Option.ite_none_right_eq_some,Option.some.injEq] at ran
    obtain ⟨⟨t,place,file⟩,here,⟨reader,front,fits⟩,rfl⟩ := ran
    exact .reads here reader front fits
  | readLast i =>
    simp only [step,Option.bind_eq_some_iff,Option.ite_none_right_eq_some,Option.some.injEq] at ran
    obtain ⟨⟨t,place,file⟩,here,⟨reader,past⟩,rfl⟩ := ran
    exact .finishes here reader past
  | sqlite3_open i creates =>
    simp only [step,Option.bind_eq_some_iff,Option.ite_none_right_eq_some,Option.some.injEq] at ran
    obtain ⟨t,there,last,rfl⟩ := ran
    split
    · rename_i created
      simp only [Bool.and_eq_true,Option.isNone_iff_eq_none] at created
      obtain ⟨rfl,absent⟩ := created
      exact .creates there last absent
    · exact .catalogues there last

theorem running_parts (here : running s i = some (t,place,file)) :
    s.tasks i = some t ∧ t.place = some place ∧ s.disk place = some file ∧ t.phase = .looping := by
  simp only [running,Option.bind_eq_bind,Option.bind_eq_some_iff,Option.ite_none_right_eq_some,Option.some.injEq,
    Prod.mk.injEq] at here
  obtain ⟨t,there,place,opened,file,held,looping,rfl,rfl,rfl⟩ := here
  exact ⟨there,opened,held,looping⟩

-- The stream that an upload has stored, the one that a download has read, and
-- what send has taken of that.
def stored (recvs : List (Piece MAXLINE × Option Nat)) : Bytes := recvs.flatMap fun turn => turn.1.val.take (turn.2.getD 0)

def brought (sends : List (Piece MAXLINE × Int)) : Bytes := joined (sends.map Prod.fst)

def sent (child : Child) : Bytes := (servDownloadLoop child.garbage child.sends).2

theorem stored_append (recvs : List (Piece MAXLINE × Option Nat)) (piece : Piece MAXLINE) (answer : Option Nat) :
    stored (recvs ++ [(piece,answer)]) = stored recvs ++ piece.val.take (answer.getD 0) := by
  simp [stored]

theorem brought_append (sends : List (Piece MAXLINE × Int)) (piece : Piece MAXLINE) (answer : Int) :
    brought (sends ++ [(piece,answer)]) = brought sends ++ piece.val := by
  simp [brought,joined]

def Writes (t : Task) (p : Location) : Prop := t.place = some p ∧ uploads t.child = true

structure Grows (before after : Task) : Prop where
  place : after.place = before.place
  role : uploads after.child = uploads before.child
  stores : stored before.child.recvs <+: stored after.child.recvs

theorem stepped_tasks (stepped : Stepped server s action next) :
    ∃ i t, next.tasks = Function.update s.tasks i (some t) ∧ (s.tasks i = none ∨ ∃ u, s.tasks i = some u ∧ Grows u t) := by
  cases stepped with
  | forks fresh named => exact ⟨_,_,rfl,.inl fresh⟩
  | stores here writer fits =>
    refine ⟨_,_,rfl,.inr ⟨_,(running_parts here).1,rfl,rfl,?_⟩⟩
    exact (stored_append _ _ _) ▸ List.prefix_append _ _
  | breaks here writer =>
    refine ⟨_,_,rfl,.inr ⟨_,(running_parts here).1,rfl,rfl,?_⟩⟩
    exact (stored_append _ _ _) ▸ List.prefix_append _ _
  | stops here writer => exact ⟨_,_,rfl,.inr ⟨_,(running_parts here).1,rfl,rfl,List.prefix_rfl⟩⟩
  | reads here reader front fits => exact ⟨_,_,rfl,.inr ⟨_,(running_parts here).1,rfl,rfl,List.prefix_rfl⟩⟩
  | finishes here reader past => exact ⟨_,_,rfl,.inr ⟨_,(running_parts here).1,rfl,rfl,List.prefix_rfl⟩⟩
  | catalogues there | creates there => exact ⟨_,_,rfl,.inr ⟨_,there,rfl,rfl,List.prefix_rfl⟩⟩

theorem tasks_stay (stepped : Stepped server s action next) (here : s.tasks k = some u) :
    ∃ t, next.tasks k = some t ∧ Grows u t := by
  obtain ⟨i,t,moved,from_⟩ := stepped_tasks stepped
  rw [moved]
  by_cases equal : k = i
  · subst equal
    rcases from_ with fresh | ⟨v,there,grows⟩
    · cases fresh.symm.trans here
    · cases there.symm.trans here
      exact ⟨t,Function.update_self ..,grows⟩
  · exact ⟨u,by rw [Function.update_of_ne equal]; exact here,rfl,rfl,List.prefix_rfl⟩

-- Where a byte at position j of a file can be from.
def Known (original : Disk) (s : State) (p : Location) (j : Nat) (b : UInt8) : Prop :=
  (∃ old, original p = some old ∧ old[j]? = some b) ∨
    ∃ i t, s.tasks i = some t ∧ Writes t p ∧ (stored t.child.recvs)[j]? = some b

theorem known_stays (stepped : Stepped server s action next) (known : Known original s p j b) : Known original next p j b := by
  rcases known with old | ⟨i,t,here,⟨opened,writer⟩,byte⟩
  · exact .inl old
  · obtain ⟨u,there,place,role,rest,same⟩ := tasks_stay stepped here
    refine .inr ⟨i,u,there,⟨place.trans opened,role.trans writer⟩,?_⟩
    rw [← same,List.getElem?_append_left (List.getElem?_eq_some_iff.mp byte).1]
    exact byte

theorem view_some {server : Server} {name old : Bytes} :
    server.view disk name = some old ↔ server.openable name = true ∧ disk (server.place name) = some old := by
  unfold Server.view
  exact Option.ite_none_right_eq_some

theorem opened_held {server : Server} {child : Child} (place : opened server disk child = some p) : ∃ file, disk p = some file := by
  unfold opened at place
  split at place
  · cases place
  · split at place
    · obtain ⟨old,found,rfl⟩ := Option.map_eq_some_iff.mp place
      exact ⟨old,(view_some.mp found).2⟩
    · obtain ⟨old,found,rfl⟩ := Option.map_eq_some_iff.mp place
      exact ⟨old,(view_some.mp found).2⟩
    · cases place

-- A task stands inside its file, and has read no byte that cannot have been there.
structure Steady (original : Disk) (s : State) (t : Task) : Prop where
  named : nameless t.child = false
  within : ∀ p, t.place = some p → ∃ file, s.disk p = some file ∧ t.offset ≤ file.length
  counted : uploads t.child = true → t.offset = (stored t.child.recvs).length
  read : uploads t.child = false → t.offset = (brought t.child.sends).length
  replies : ∀ p j b, t.place = some p → uploads t.child = false → (brought t.child.sends)[j]? = some b → Known original s p j b

-- What every interleaving keeps. No file goes or shrinks, none but the database
-- appears, and each byte is an old one or stands there in an upload to its file.
structure Sound (server : Server) (original : Disk) (s : State) : Prop where
  stays : ∀ p, (original p).isSome → (s.disk p).isSome
  fresh : ∀ p, (s.disk p).isSome → (original p).isSome ∨ p = server.place database
  tasks : ∀ i t, s.tasks i = some t → Steady original s t
  files : ∀ p file, s.disk p = some file →
    ((original p).getD []).length ≤ file.length ∧ ∀ j b, file[j]? = some b → Known original s p j b

theorem start_sound (server : Server) (disk : Disk) : Sound server disk (start disk) := by
  refine ⟨fun _ there => there,fun _ there => .inl there,?_,?_⟩
  · intro i t here
    cases here
  · intro p file now
    have was : disk p = some file := now
    rw [was]
    exact ⟨Nat.le_refl _,fun j b byte => .inl ⟨file,was,byte⟩⟩

theorem steady_stays (stepped : Stepped server s action next) (steady : Steady original s t)
    (longer : ∀ p old, s.disk p = some old → ∃ file, next.disk p = some file ∧ old.length ≤ file.length) :
    Steady original next t := by
  refine ⟨steady.named,?_,steady.counted,steady.read,?_⟩
  · intro p at_
    obtain ⟨old,held,inside⟩ := steady.within p at_
    obtain ⟨file,found,grown⟩ := longer p old held
    exact ⟨file,found,Nat.le_trans inside grown⟩
  · intro p j b at_ reader byte
    exact known_stays stepped (steady.replies p j b at_ reader byte)

theorem sound_put {server : Server} (valid : Sound server original s) (stepped : Stepped server s action (s.put i t))
    (steady : Steady original s t) : Sound server original (s.put i t) := by
  have longer : ∀ p old, s.disk p = some old → ∃ file, (s.put i t).disk p = some file ∧ old.length ≤ file.length :=
    fun p old held => ⟨old,held,Nat.le_refl _⟩
  refine ⟨valid.stays,valid.fresh,update_forall (steady_stays stepped steady longer) ?_,?_⟩
  · intro k u there
    exact steady_stays stepped (valid.tasks k u there) longer
  · intro p file now
    obtain ⟨grown,bytes⟩ := valid.files p file now
    exact ⟨grown,fun j b byte => known_stays stepped (bytes j b byte)⟩

theorem store_found {s : State} (found : (s.store place file).disk p = some now) :
    (p = place ∧ now = file) ∨ (p ≠ place ∧ s.disk p = some now) := by
  by_cases equal : p = place
  · subst equal
    simp only [State.store,Function.update_self,Option.some.injEq] at found
    exact .inl ⟨rfl,found.symm⟩
  · simp only [State.store,Function.update_of_ne equal] at found
    exact .inr ⟨equal,found⟩

theorem store_stays {s : State} (present : (s.disk p).isSome) : ((s.store place file).disk p).isSome := by
  by_cases equal : p = place
  · subst equal
    simp [State.store]
  · simpa [State.store,equal] using present

theorem running_inside {server : Server} (valid : Sound server original s) (here : running s i = some (t,place,file)) :
    t.offset ≤ file.length := by
  obtain ⟨there,at_place,held,_⟩ := running_parts here
  obtain ⟨now,found,inside⟩ := (valid.tasks i t there).within place at_place
  cases held.symm.trans found
  exact inside

theorem stores_known {server : Server} (valid : Sound server original s) (here : running s i = some (t,place,file))
    (writer : uploads t.child = true) (fits : writen ≤ piece.val.length)
    (byte : (writeAt file t.offset (piece.val.take writen))[j]? = some b) :
    Known original ((s.store place (writeAt file t.offset (piece.val.take writen))).put i (received t piece (some writen)))
      place j b := by
  obtain ⟨there,at_place,held,_⟩ := running_parts here
  have stepped : Stepped server s (.recv i piece (some writen)) _ := .stores here writer fits
  have inside := running_inside valid here
  have count := (valid.tasks i t there).counted writer
  rw [writeAt_overwrite inside,overwrite_getElem? inside] at byte
  split at byte
  · refine .inr ⟨i,_,Function.update_self ..,⟨at_place,writer⟩,?_⟩
    simp only [received,stored_append,Option.getD_some]
    rw [List.getElem?_append_right (by omega),← count]
    exact byte
  · exact known_stays stepped ((valid.files place file held).2 j b byte)

theorem sound_stores {server : Server} (valid : Sound server original s) (here : running s i = some (t,place,file))
    (writer : uploads t.child = true) (fits : writen ≤ piece.val.length) :
    Sound server original
      ((s.store place (writeAt file t.offset (piece.val.take writen))).put i (received t piece (some writen))) := by
  obtain ⟨there,at_place,held,_⟩ := running_parts here
  have stepped : Stepped server s (.recv i piece (some writen)) _ := .stores here writer fits
  have steady := valid.tasks i t there
  have inside := running_inside valid here
  have count := steady.counted writer
  have sent : (piece.val.take writen).length = writen := List.length_take_of_le fits
  have grown : file.length ≤ (writeAt file t.offset (piece.val.take writen)).length := by rw [writeAt_length]; omega
  have reaches := writeAt_reaches inside (piece.val.take writen)
  have longer : ∀ p old, s.disk p = some old →
      ∃ now, (s.store place (writeAt file t.offset (piece.val.take writen))).disk p = some now ∧ old.length ≤ now.length := by
    intro p old was
    by_cases equal : p = place
    · subst equal
      cases held.symm.trans was
      exact ⟨_,Function.update_self ..,grown⟩
    · exact ⟨old,(Function.update_of_ne equal ..).trans was,Nat.le_refl _⟩
  refine ⟨fun p old => store_stays (valid.stays p old),?_,update_forall ⟨steady.named,?_,?_,?_,?_⟩ ?_,?_⟩
  · intro p present
    obtain ⟨now,found⟩ := Option.isSome_iff_exists.mp present
    apply valid.fresh p
    rcases store_found found with ⟨rfl,_⟩ | ⟨_,found⟩
    · rw [held]; rfl
    · rw [found]; rfl
  · intro p at_
    cases at_place.symm.trans at_
    refine ⟨_,Function.update_self ..,?_⟩
    simp only [received,Option.getD_some]
    omega
  · intro _
    simp only [received,stored_append,List.length_append,Option.getD_some]
    omega
  · intro reader
    cases writer.symm.trans reader
  · intro p j b _ reader
    cases writer.symm.trans reader
  · intro k u known
    exact steady_stays stepped (valid.tasks k u known) longer
  · intro p now found
    rcases store_found found with ⟨rfl,rfl⟩ | ⟨_,found⟩
    · have length := (valid.files p file held).1
      exact ⟨by omega,fun j b => stores_known valid here writer fits⟩
    · obtain ⟨length,bytes⟩ := valid.files p now found
      exact ⟨length,fun j b byte => known_stays stepped (bytes j b byte)⟩

theorem sound_creates {server : Server} (valid : Sound server original s) (there : s.tasks i = some t)
    (last : catalogues t = true) (absent : s.disk (server.place database) = none) :
    Sound server original ((s.store (server.place database) []).put i {t with phase := .returned}) := by
  have stepped : Stepped server s (.sqlite3_open i true) _ := .creates there last absent
  have steady := valid.tasks i t there
  have longer : ∀ p old, s.disk p = some old →
      ∃ now, (s.store (server.place database) []).disk p = some now ∧ old.length ≤ now.length := by
    intro p old was
    have other : p ≠ server.place database := by
      rintro rfl
      cases absent.symm.trans was
    exact ⟨old,(Function.update_of_ne other ..).trans was,Nat.le_refl _⟩
  have still : Steady original s {t with phase := .returned} := ⟨steady.named,steady.within,steady.counted,steady.read,steady.replies⟩
  refine ⟨fun p old => store_stays (valid.stays p old),?_,update_forall (steady_stays stepped still longer) ?_,?_⟩
  · intro p present
    obtain ⟨now,found⟩ := Option.isSome_iff_exists.mp present
    rcases store_found found with ⟨rfl,_⟩ | ⟨_,found⟩
    · exact .inr rfl
    · exact valid.fresh p (by rw [found]; rfl)
  · intro k u known
    exact steady_stays stepped (valid.tasks k u known) longer
  · intro p now found
    rcases store_found found with ⟨rfl,rfl⟩ | ⟨_,found⟩
    · have none_ : original (server.place database) = none := by
        by_contra some_
        have kept := valid.stays _ (Option.isSome_iff_ne_none.mpr some_)
        rw [absent] at kept
        cases kept
      rw [none_]
      exact ⟨Nat.le_refl _,fun j b byte => by cases byte⟩
    · obtain ⟨length,bytes⟩ := valid.files p now found
      exact ⟨length,fun j b byte => known_stays stepped (bytes j b byte)⟩

theorem steady_reads {server : Server} (valid : Sound server original s) (here : running s i = some (t,place,file))
    (reader : uploads t.child = false) (front : (file.drop t.offset).take piece.val.length = piece.val) (answer : Int) :
    Steady original s (fetched t piece answer) := by
  obtain ⟨there,at_place,held,_⟩ := running_parts here
  have steady := valid.tasks i t there
  have count := steady.read reader
  have inside := running_inside valid here
  have size := congrArg List.length front
  rw [List.length_take,List.length_drop] at size
  refine ⟨steady.named,?_,?_,?_,?_⟩
  · intro p at_
    cases at_place.symm.trans at_
    refine ⟨file,held,?_⟩
    simp only [fetched]
    omega
  · intro writer
    cases reader.symm.trans writer
  · intro _
    simp only [fetched,brought_append,List.length_append]
    omega
  · intro p j b at_ _ byte
    cases at_place.symm.trans at_
    simp only [fetched,brought_append] at byte
    by_cases before : j < (brought t.child.sends).length
    · rw [List.getElem?_append_left before] at byte
      exact steady.replies place j b at_place reader byte
    · have brought := (List.getElem?_eq_some_iff.mp byte).1
      rw [List.length_append] at brought
      rw [List.getElem?_append_right (by omega),← front,← count,List.getElem?_take_of_lt (by omega),List.getElem?_drop,
        show t.offset + (j - t.offset) = j by omega] at byte
      exact (valid.files place file held).2 j b byte

theorem sound_preserved {server : Server} (valid : Sound server original s) (stepped : Stepped server s action next) :
    Sound server original next := by
  have whole := stepped
  cases stepped with
  | forks fresh named =>
    refine sound_put valid whole ⟨named,?_,fun _ => rfl,fun _ => rfl,?_⟩
    · intro p at_
      obtain ⟨file,held⟩ := opened_held at_
      exact ⟨file,held,Nat.zero_le _⟩
    · intro p j b _ _ byte; cases byte
  | stores here writer fits => exact sound_stores valid here writer fits
  | breaks here writer =>
    have steady := valid.tasks _ _ (running_parts here).1
    refine sound_put valid whole ⟨steady.named,?_,?_,steady.read,steady.replies⟩
    · simpa only [received,Option.getD_none,Nat.add_zero] using steady.within
    · intro _
      simpa [received,stored_append] using steady.counted writer
  | stops here writer =>
    have steady := valid.tasks _ _ (running_parts here).1
    exact sound_put valid whole ⟨steady.named,steady.within,steady.counted,steady.read,steady.replies⟩
  | reads here reader front fits => exact sound_put valid whole (steady_reads valid here reader front _)
  | finishes here reader past =>
    have steady := valid.tasks _ _ (running_parts here).1
    exact sound_put valid whole ⟨steady.named,steady.within,steady.counted,steady.read,steady.replies⟩
  | catalogues there last =>
    have steady := valid.tasks _ _ there
    exact sound_put valid whole ⟨steady.named,steady.within,steady.counted,steady.read,steady.replies⟩
  | creates there last absent => exact sound_creates valid there last absent

theorem run_sound {server : Server} (ran : run (step server) (start disk) actions = some s) : Sound server disk s :=
  run_invariant (fun _ _ _ valid stepped => sound_preserved valid (step_sound stepped)) (start_sound server disk) ran

def forked : List Action → List Nat
  | [] => []
  | .fork i _ _ _ :: rest => i :: forked rest
  | _ :: rest => forked rest

end NetworkEx.FileTraffic
