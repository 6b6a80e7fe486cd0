import NetworkEx.FileAgreement
import NetworkEx.PathResolution
import NetworkEx.TransitionRuns

namespace NetworkEx.FileConfinement
open ByteStreams CText WireWords PathResolution FileProtocol FileAgreement TransitionRuns

-- The server's machine: its working directory, innermost name first, and what
-- open asks besides that the file is there (permissions, the way to it).
structure Server where
  cwd : List Bytes
  openable : Bytes → Bool

abbrev Disk := Location → Option Bytes

def Server.base (server : Server) : Location := ⟨true,0,server.cwd⟩

def Server.place (server : Server) (name : Bytes) : Location :=
  (components name).foldl Location.enter (if name.head? = some slash then ⟨true,0,[]⟩ else server.base)

def database : Bytes := ascii "mydb.db"

def Server.view (server : Server) (disk : Disk) : Files :=
  fun name => if server.openable name then disk (server.place name) else none

def asked (child : Child) : Request := request (overlay child.query child.stack)

-- One child on the disk. A name without a NUL runs out of the query.
def serve (server : Server) (disk : Disk) (child : Child) : Option Disk :=
  if child.query = [] then some disk
  else match asked child with
    | .upload none | .download none => none
    | .upload (some f_name) =>
      match server.view disk f_name with
      | none => some disk
      | some old => some (Function.update disk (server.place f_name) (some (servUploadLoop old 0 child.recvs)))
    | _ => some disk

def opened (server : Server) (disk : Disk) (child : Child) : Option Location :=
  if child.query = [] then none
  else match asked child with
    | .upload (some f_name) | .download (some f_name) => (server.view disk f_name).map fun _ => server.place f_name
    | _ => none

-- A run of children that goes through, opens nothing outside of the working
-- directory and leaves the database as it was.
structure Confines (server : Server) (disk : Disk) (children : List Child) : Prop where
  defined : (run (serve server) disk children).isSome
  opens : Every (serve server) (fun now child => ∀ place, opened server now child = some place → Below server.base place)
    disk children
  catalogue : Always (serve server) (fun now => now (server.place database) = disk (server.place database)) disk children

def storesNothing : List (Piece MAXLINE × Option Nat) → Bool
  | [] => true
  | (_,none) :: _ => true
  | (_,some writen) :: rest => writen == 0 && storesNothing rest

def Inward (name : Bytes) : Prop := name.head? ≠ some slash ∧ inward 0 (components name) = true

def Harmless (child : Child) : Prop :=
  child.query = [] ∨ match asked child with
    | .upload none | .download none => False
    | .upload (some f_name) => Inward f_name ∧ (storesNothing child.recvs = true ∨ resolve f_name ≠ resolve database)
    | .download (some f_name) => Inward f_name
    | .list | .unknown => True

theorem proc_serve (frame : LeavesFiles sqlite) (answered : proc sqlite (server.view disk) child = some served) :
    ∃ after, serve server disk child = some after ∧ ∀ f_name, child.query ≠ [] → asked child = .upload (some f_name) →
      served.files f_name = server.view after f_name := by
  unfold proc at answered
  unfold serve
  by_cases silent : child.query = []
  · rw [if_pos silent]
    exact ⟨disk,rfl,fun _ spoke => absurd silent spoke⟩
  rw [if_neg silent] at answered ⊢
  cases branch : asked child with
  | upload f_name =>
    rw [asked] at branch
    rw [branch] at answered
    cases f_name with
    | none => cases answered
    | some name =>
      have stored : served.files = (servFileUpload sqlite (server.view disk) name child.recvs).2 := by
        rw [← Option.some.inj answered]; rfl
      cases found : server.view disk name with
      | none =>
        refine ⟨disk,by simp [found],?_⟩
        rintro f_name _ ⟨⟩
        rw [stored,servFileUpload_absent found]
      | some old =>
        refine ⟨Function.update disk (server.place name) (some (servUploadLoop old 0 child.recvs)),by simp [found],?_⟩
        rintro f_name _ ⟨⟩
        have openable : server.openable name = true := by
          apply Classical.byContradiction
          intro closed
          simp [Server.view,closed] at found
        rw [stored,servFileUpload_present frame found]
        simp [Server.view,openable]
  | download f_name =>
    rw [asked] at branch
    rw [branch] at answered
    cases f_name with
    | none => cases answered
    | some name => exact ⟨disk,rfl,by rintro _ _ ⟨⟩⟩
  | list => exact ⟨disk,rfl,by rintro _ _ ⟨⟩⟩
  | unknown => exact ⟨disk,rfl,by rintro _ _ ⟨⟩⟩

theorem place_inward (server : Server) (inside : Inward name) :
    resolve name = ⟨false,0,(resolve name).names⟩ ∧ server.place name = ⟨true,0,(resolve name).names ++ server.cwd⟩ := by
  obtain ⟨relative,stays⟩ := inside
  have here : resolve name = (components name).foldl Location.enter ⟨false,0,[]⟩ := by
    rw [resolve,decide_eq_false relative]
  have there : server.place name = (components name).foldl Location.enter ⟨true,0,[] ++ server.cwd⟩ := by
    rw [Server.place,if_neg relative]; rfl
  have kept : Below ⟨false,0,[]⟩ (resolve name) := by
    rw [here]; exact inward_stays [] stays rfl rfl rfl
  refine ⟨?_,?_⟩
  · obtain ⟨absolute,ups,_⟩ := kept
    cases shape : resolve name with
    | mk absolute_ ups_ names =>
      rw [shape] at absolute ups
      simp only at absolute ups
      rw [absolute,ups]
  · rw [there,here]
    exact inward_under [] stays

theorem database_inward : Inward database := ⟨by decide,by decide⟩

theorem database_place (server : Server) (inside : Inward name) :
    server.place name = server.place database ↔ resolve name = resolve database := by
  obtain ⟨here,there⟩ := place_inward server inside
  obtain ⟨database_here,database_there⟩ := place_inward server database_inward
  rw [there,database_there,here,database_here]
  simp

theorem inward_below (server : Server) (inside : Inward name) : Below server.base (server.place name) := by
  rw [(place_inward server inside).2]
  exact ⟨rfl,rfl,⟨(resolve name).names,rfl⟩⟩

def awayFrom (name : Bytes) : Server := ⟨[freshName name],fun _ => true⟩

theorem outward_not_below (outside : ¬ Inward name) : ¬ Below (awayFrom name).base ((awayFrom name).place name) := by
  intro below
  refine absurd (below_named below) ?_
  unfold Server.place
  by_cases absolute : name.head? = some slash
  · rw [if_pos absolute]
    exact absent_stays (by simp) (freshName_unspelled (Nat.le_refl _))
  · rw [if_neg absolute]
    have climbs : inward 0 (components name) = false := by
      simpa using fun stays => outside ⟨absolute,stays⟩
    exact outward_leaves [] climbs rfl (by simp) (freshName_unspelled (Nat.le_refl _))

theorem stores_nothing (nothing : storesNothing recvs = true) (inside : offset ≤ file.length) :
    servUploadLoop file offset recvs = file := by
  induction recvs with
  | nil => rfl
  | cons turn rest ih =>
    obtain ⟨piece,answer⟩ := turn
    cases answer with
    | none => rfl
    | some writen =>
      simp only [storesNothing,Bool.and_eq_true,beq_iff_eq] at nothing
      obtain ⟨rfl,later⟩ := nothing
      rw [servUploadLoop,List.take_zero,writeAt_nil inside,Nat.add_zero]
      exact ih later

theorem servUploadLoop_grows (file : Bytes) (offset : Nat) (recvs : List (Piece MAXLINE × Option Nat)) :
    file.length ≤ (servUploadLoop file offset recvs).length := by
  induction recvs generalizing file offset with
  | nil => exact Nat.le_refl _
  | cons turn rest ih =>
    obtain ⟨piece,answer⟩ := turn
    cases answer with
    | none => exact Nat.le_refl _
    | some writen =>
      have first := writeAt_length file offset (piece.val.take writen)
      have later := ih (writeAt file offset (piece.val.take writen)) (offset + writen)
      rw [servUploadLoop]
      omega

theorem stores_something (something : storesNothing recvs = false) : servUploadLoop file 0 recvs ≠ [] := by
  induction recvs with
  | nil => cases something
  | cons turn rest ih =>
    obtain ⟨piece,answer⟩ := turn
    cases answer with
    | none => cases something
    | some writen =>
      rw [servUploadLoop]
      cases writen with
      | zero =>
        rw [List.take_zero,writeAt_nil (Nat.zero_le _),Nat.add_zero]
        exact ih (by simpa [storesNothing] using something)
      | succ writen =>
        have positive := piece.property.1
        have first := writeAt_length file 0 (piece.val.take (writen + 1))
        have grows := servUploadLoop_grows (writeAt file 0 (piece.val.take (writen + 1))) (0 + (writen + 1)) rest
        rw [List.length_take] at first
        intro empty
        rw [empty,List.length_nil] at grows
        omega

theorem serve_parts (served : serve server disk child = some after) :
    after = disk ∨ ∃ f_name old, child.query ≠ [] ∧ asked child = .upload (some f_name) ∧
      server.view disk f_name = some old ∧
      after = Function.update disk (server.place f_name) (some (servUploadLoop old 0 child.recvs)) := by
  unfold serve at served
  split at served
  · cases served; exact .inl rfl
  · rename_i spoke
    split at served
    · cases served
    · cases served
    · rename_i f_name upload
      split at served
      · cases served; exact .inl rfl
      · rename_i old found
        cases served
        exact .inr ⟨f_name,old,spoke,upload,found,rfl⟩
    · cases served; exact .inl rfl

theorem harmless_serves (harmless : Harmless child) (server : Server) (disk : Disk) : (serve server disk child).isSome := by
  unfold serve
  split
  · rfl
  · rename_i spoke
    have branch := harmless.resolve_left spoke
    split
    · rename_i unnamed; rw [unnamed] at branch; exact absurd branch id
    · rename_i unnamed; rw [unnamed] at branch; exact absurd branch id
    · split <;> rfl
    · rfl

theorem harmless_opens (harmless : Harmless child) (server : Server) (disk : Disk) :
    ∀ place, opened server disk child = some place → Below server.base place := by
  intro place found
  unfold opened at found
  split at found
  · cases found
  · rename_i spoke
    have branch := harmless.resolve_left spoke
    split at found
    · rename_i f_name upload
      rw [upload] at branch
      obtain ⟨_,_,rfl⟩ := Option.map_eq_some_iff.mp found
      exact inward_below server branch.1
    · rename_i f_name download
      rw [download] at branch
      obtain ⟨_,_,rfl⟩ := Option.map_eq_some_iff.mp found
      exact inward_below server branch
    · cases found

theorem harmless_database (harmless : Harmless child) (served : serve server disk child = some after) :
    after (server.place database) = disk (server.place database) := by
  rcases serve_parts served with rfl | ⟨f_name,old,spoke,upload,found,rfl⟩
  · rfl
  · have branch := harmless.resolve_left spoke
    rw [upload] at branch
    obtain ⟨inside,apart⟩ := branch
    by_cases same : server.place f_name = server.place database
    · have nothing := apart.resolve_right (not_not.mpr ((database_place server inside).mp same))
      have held : disk (server.place f_name) = some old := by
        unfold Server.view at found
        split at found
        · exact found
        · cases found
      rw [stores_nothing nothing (Nat.zero_le _),← same,Function.update_self,held]
    · rw [Function.update_of_ne (Ne.symm same)]

theorem harmless_confines (harmless : ∀ child ∈ children, Harmless child) (server : Server) (disk : Disk) :
    Confines server disk children := by
  let Kept (now : Disk) : Prop := now (server.place database) = disk (server.place database)
  have keeps : ∀ now child after, Kept now → Harmless child → serve server now child = some after → Kept after :=
    fun now child after kept mild served => (harmless_database mild served).trans kept
  have start : Kept disk := rfl
  refine ⟨?_,?_,?_⟩
  · exact run_total (fun child member now => harmless_serves (harmless child member) server now) disk
  · exact every_of_actions (fun child member now => harmless_opens (harmless child member) server now) disk
  · exact always_of_preserves keeps (fun now kept => kept) start
      (every_of_actions (fun child member _ => harmless child member) disk)

def emptyFiles : Disk := fun _ => some []

theorem full_run (ran : run (serve server) emptyFiles children = some now) (place : Location) : (now place).isSome := by
  let Full (now : Disk) : Prop := ∀ place, (now place).isSome
  have keeps : ∀ now child after, Full now → serve server now child = some after → Full after := by
    intro now child after full served place
    rcases serve_parts served with rfl | ⟨f_name,old,_,_,_,rfl⟩
    · exact full place
    · by_cases equal : place = server.place f_name
      · subst equal; simp
      · rw [Function.update_of_ne equal]; exact full place
  have full : Full now := run_invariant keeps (fun _ => rfl) ran
  exact full place

theorem away_view (ran : run (serve (awayFrom name)) emptyFiles children = some now) (f_name : Bytes) :
    ∃ old, (awayFrom name).view now f_name = some old :=
  Option.isSome_iff_exists.mp (full_run ran ((awayFrom name).place f_name))

theorem confines_inward (confines : Confines (awayFrom name) emptyFiles (first ++ child :: rest)) (spoke : child.query ≠ [])
    (named : asked child = .upload (some name) ∨ asked child = .download (some name)) : Inward name := by
  apply Classical.byContradiction
  intro outside
  obtain ⟨now,after,reached,served⟩ := run_split confines.defined
  obtain ⟨old,found⟩ := away_view reached name
  have here := (every_append confines.opens reached).2.1
  apply outward_not_below outside
  apply here
  rcases named with upload | download
  · simp [opened,spoke,upload,found]
  · simp [opened,spoke,download,found]

theorem confines_stores (confines : Confines (awayFrom name) emptyFiles (first ++ child :: rest)) (spoke : child.query ≠ [])
    (upload : asked child = .upload (some name)) (inside : Inward name) (database_named : resolve name = resolve database) :
    storesNothing child.recvs = true := by
  apply Classical.byContradiction
  intro stores
  obtain ⟨now,after,reached,served⟩ := run_split confines.defined
  obtain ⟨old,found⟩ := away_view reached name
  have place := (database_place (awayFrom name) inside).mpr database_named
  have stored : serve (awayFrom name) now child =
      some (Function.update now ((awayFrom name).place name) (some (servUploadLoop old 0 child.recvs))) := by
    simp [serve,spoke,upload,found]
  have through : run (serve (awayFrom name)) emptyFiles ((first ++ child :: rest).take (first.length + 1)) =
      some (Function.update now ((awayFrom name).place name) (some (servUploadLoop old 0 child.recvs))) := by
    rw [List.take_append,List.take_of_length_le (by omega),show first.length + 1 - first.length = 1 by omega,
      List.take_succ_cons,List.take_zero,run_append,reached,Option.bind_some,run_cons,stored]
    rfl
  have kept := confines.catalogue _ _ through
  rw [← place,Function.update_self] at kept
  exact stores_something (by simpa using stores) (Option.some.inj kept)

theorem files_confined :
    (∀ server disk, Confines server disk children) ↔ ∀ child ∈ children, Harmless child := by
  constructor
  · intro confines child member
    obtain ⟨first,rest,rfl⟩ := List.append_of_mem member
    by_cases spoke : child.query = []
    · exact .inl spoke
    refine .inr ?_
    obtain ⟨now,after,_,served⟩ := run_split (confines (awayFrom []) emptyFiles).defined
    cases branch : asked child with
    | upload f_name =>
      cases f_name with
      | none => simp [serve,spoke,branch] at served
      | some name =>
        have inside := confines_inward (confines _ _) spoke (.inl branch)
        refine ⟨inside,?_⟩
        apply Classical.or_iff_not_imp_right.mpr
        intro named
        exact confines_stores (confines _ _) spoke branch inside (not_not.mp named)
    | download f_name =>
      cases f_name with
      | none => simp [serve,spoke,branch] at served
      | some name => exact confines_inward (confines _ _) spoke (.inr branch)
    | list => trivial
    | unknown => trivial
  · intro harmless server disk
    exact harmless_confines harmless server disk

def uploadOf (name : Bytes) : Child where
  stack := List.replicate querySize 0
  query := (fillQuery Q_UPLOAD name).getD []
  recvs := [(oneByte 7,some 1)]
  garbage := 0
  sends := []

def inFiles : Server := ⟨[ascii "files"],fun _ => true⟩

theorem upload_escapes :
    ¬ Confines inFiles emptyFiles [uploadOf (ascii "/etc/passwd")] ∧
    ¬ Confines inFiles emptyFiles [uploadOf (ascii "../passwd")] ∧
    ¬ Confines inFiles emptyFiles [uploadOf (ascii "./mydb.db")] := by
  refine ⟨?_,?_,?_⟩
  · intro confines
    have below := confines.opens.1 (resolve (ascii "/etc/passwd")) (by decide)
    exact absurd below (by decide)
  · intro confines
    have below := confines.opens.1 ⟨true,0,[ascii "passwd"]⟩ (by decide)
    exact absurd below (by decide)
  · intro confines
    have ends : (run (serve inFiles) emptyFiles [uploadOf (ascii "./mydb.db")]).map
        (fun now => now (inFiles.place database)) = some (some [7]) := by decide
    obtain ⟨now,ran,stored⟩ := Option.map_eq_some_iff.mp ends
    have kept : now (inFiles.place database) = emptyFiles (inFiles.place database) := confines.catalogue 1 now ran
    rw [stored] at kept
    cases kept

end NetworkEx.FileConfinement
