import NetworkEx.FileProtocol
import NetworkEx.TransitionRuns

namespace NetworkEx.FileCatalogue
open ByteStreams CText WireWords FileProtocol TransitionRuns

-- What the linked library does: sqlite3_open succeeds and changes no row, and
-- file_info is read from the database's own files alone: `own` has every spelling of
-- mydb.db and of what sqlite keeps beside it.
structure Library (sqlite : Sqlite) (own : Bytes → Prop) : Prop where
  opens : ∀ files, (sqlite.sqlite3_open files).1 = 0
  rowsKept : ∀ files, sqlite.fileInfo (sqlite.sqlite3_open files).2 = sqlite.fileInfo files
  rowsOwn : ∀ files other, (∀ name, own name → files name = other name) → sqlite.fileInfo files = sqlite.fileInfo other

-- One forked child after the other, on the files of the server.
def step (sqlite : Sqlite) (files : Files) (child : Child) : Option Files := (proc sqlite files child).map Served.files

-- The file an upload stored, where serv_file_upload returned 1.
def uploads (sqlite : Sqlite) (files : Files) (child : Child) : List Bytes :=
  match request (overlay child.query child.stack) with
  | .upload (some f_name) =>
    if child.query ≠ [] ∧ (servFileUpload sqlite files f_name child.recvs).1 = 1 then [f_name] else []
  | _ => []

def Catalogued (sqlite : Sqlite) (files : Files) (name : Bytes) : Prop :=
  ∃ record ∈ (sqlite.fileInfo files).1, (ascii "name",some name) ∈ record

def Reported (sqlite : Sqlite) (files : Files) (reply name : Bytes) : Prop :=
  ∃ record ∈ (sqlite.fileInfo files).1, (ascii "name",some name) ∈ record ∧
    ∃ text, callback record = some text ∧ text <:+: reply

def Lists (child : Child) : Prop := child.query ≠ [] ∧ request (overlay child.query child.stack) = .list

theorem servFileUpload_present (lib : Library sqlite own) (present : files name = some old) :
    servFileUpload sqlite files name recvs = (1,(sqlite.sqlite3_open
      (Function.update files name (some (servUploadLoop old 0 recvs)))).2) := by
  simp [servFileUpload,present,lib.opens]

theorem servFileUpload_rows (lib : Library sqlite own) (recvs : List (Piece MAXLINE × Option Nat))
    (apart : (servFileUpload sqlite files name recvs).1 = 1 → ¬ own name) :
    sqlite.fileInfo (servFileUpload sqlite files name recvs).2 = sqlite.fileInfo files := by
  cases present : files name with
  | none => simp [servFileUpload,present]
  | some old =>
    rw [servFileUpload_present lib present] at apart ⊢
    rw [lib.rowsKept]
    apply lib.rowsOwn
    intro other mine
    have different : other ≠ name := by rintro rfl; exact apart rfl mine
    rw [Function.update_of_ne different]

theorem servFileList_parts (lib : Library sqlite own) :
    servFileList sqlite files = ((sqlite.fileInfo files).1.mapM callback).map fun texts =>
      (1,(sqlite.sqlite3_open files).2,texts.flatten) := by
  simp only [servFileList,lib.opens,lib.rowsKept]
  cases (sqlite.fileInfo files).1.mapM callback <;> rfl

theorem callback_texts {rows : List Record} (all : ∀ record ∈ rows, (callback record).isSome) :
    ∃ texts, rows.mapM callback = some texts ∧
      ∀ record ∈ rows, ∃ text, callback record = some text ∧ text <:+: texts.flatten := by
  induction rows with
  | nil => exact ⟨[],rfl,by simp⟩
  | cons record rest ih =>
    obtain ⟨texts,printed,each⟩ := ih fun later member => all later (List.mem_cons_of_mem _ member)
    obtain ⟨text,here⟩ := Option.isSome_iff_exists.mp (all record List.mem_cons_self)
    refine ⟨text :: texts,by simp [here,printed],?_⟩
    intro known member
    rcases List.mem_cons.mp member with rfl | later
    · exact ⟨text,here,⟨[],texts.flatten,by simp⟩⟩
    · obtain ⟨known_text,found,before,behind,whole⟩ := each known later
      exact ⟨known_text,found,⟨text ++ before,behind,by simp [← whole]⟩⟩

theorem callback_all {rows : List Record} (printed : rows.mapM callback = some texts) :
    ∀ record ∈ rows, (callback record).isSome := by
  induction rows generalizing texts with
  | nil => simp
  | cons record rest ih =>
    simp only [List.mapM_cons,Option.bind_eq_bind,Option.bind_eq_some_iff] at printed
    obtain ⟨text,here,later,tail,_⟩ := printed
    intro known member
    rcases List.mem_cons.mp member with rfl | old
    · simp [here]
    · exact ih tail known old

theorem proc_list (lib : Library sqlite own) (asked : Lists child) :
    proc sqlite files child = ((sqlite.fileInfo files).1.mapM callback).map fun texts =>
      ⟨1,(sqlite.sqlite3_open files).2,texts.flatten⟩ := by
  unfold proc
  rw [if_neg asked.1,asked.2]
  simp [servFileList_parts lib,Function.comp_def]

theorem step_rows (lib : Library sqlite own) (apart : ∀ name ∈ uploads sqlite files child, ¬ own name)
    (ran : step sqlite files child = some after) : sqlite.fileInfo after = sqlite.fileInfo files := by
  obtain ⟨served,answered,rfl⟩ := Option.map_eq_some_iff.mp ran
  unfold proc at answered
  by_cases silent : child.query = []
  · rw [if_pos silent] at answered
    cases answered; rfl
  rw [if_neg silent] at answered
  cases asked : request (overlay child.query child.stack) with
  | upload f_name =>
    cases f_name with
    | none => rw [asked] at answered; cases answered
    | some name =>
      rw [asked] at answered
      cases answered
      apply servFileUpload_rows lib
      intro stored
      exact apart name (by simp [uploads,asked,silent,stored])
  | download f_name =>
    cases f_name with
    | none => rw [asked] at answered; cases answered
    | some name => rw [asked] at answered; cases answered; rfl
  | list =>
    rw [asked] at answered
    simp only [servFileList_parts lib,Option.map_map,Option.map_eq_some_iff] at answered
    obtain ⟨texts,_,rfl⟩ := answered
    exact lib.rowsKept files
  | unknown => rw [asked] at answered; cases answered; rfl

theorem run_rows (lib : Library sqlite own) (apart : ∀ name ∈ emitted (step sqlite) (uploads sqlite) files children, ¬ own name)
    (ran : run (step sqlite) files children = some after) : sqlite.fileInfo after = sqlite.fileInfo files := by
  let Kept (now : Files) : Prop := sqlite.fileInfo now = sqlite.fileInfo files
  have keeps : ∀ now child next, Kept now → (∀ name ∈ uploads sqlite now child, ¬ own name) →
      step sqlite now child = some next → Kept next :=
    fun now child next same apart ran => (step_rows lib apart ran).trans same
  have start : Kept files := rfl
  have kept : Kept after := run_preserves keeps start (every_of_emitted apart) ran
  exact kept

theorem catalogue_exact (lib : Library sqlite own)
    (apart : ∀ name ∈ emitted (step sqlite) (uploads sqlite) files children, ¬ own name)
    (ran : run (step sqlite) files children = some after) (asked : Lists child) :
    (∃ served, proc sqlite after child = some served ∧
      ∀ name ∈ emitted (step sqlite) (uploads sqlite) files children, Reported sqlite after served.reply name) ↔
    (∀ record ∈ (sqlite.fileInfo files).1, (callback record).isSome) ∧
      ∀ name ∈ emitted (step sqlite) (uploads sqlite) files children, Catalogued sqlite files name := by
  have rows := run_rows lib apart ran
  rw [proc_list lib asked,← rows]
  constructor
  · intro ⟨served,answered,reported⟩
    obtain ⟨texts,printed,_⟩ := Option.map_eq_some_iff.mp answered
    refine ⟨callback_all printed,?_⟩
    intro name stored
    obtain ⟨record,member,named,_⟩ := reported name stored
    exact ⟨record,by rw [← rows]; exact member,named⟩
  · intro ⟨all,catalogued⟩
    obtain ⟨texts,printed,each⟩ := callback_texts all
    refine ⟨_,by rw [printed]; rfl,?_⟩
    intro name stored
    obtain ⟨record,member,named⟩ := catalogued name stored
    rw [← rows] at member
    exact ⟨record,member,named,each record member⟩

-- The table as the repository ships it, with the one row of test.txt. A
-- mydb.db that sqlite3_open had to create has no file_info.
def testRow : Record :=
  [(ascii "name",some (ascii "test.txt")),(ascii "ip",some (ascii "127.0.0.1")),
    (ascii "up_date",some (ascii "2010/5/31 10:00:00")),(ascii "count",some (ascii "0")),(ascii "size",some (ascii "1000"))]

def shipped : Bytes := ascii "SQLite format 3"

def oneRowSqlite : Sqlite where
  sqlite3_open files := (0,fun name => if name = ascii "mydb.db" then some ((files name).getD []) else files name)
  fileInfo files := if files (ascii "mydb.db") = some shipped then ([testRow],0) else ([],1)

theorem oneRowSqlite_library : Library oneRowSqlite (· = ascii "mydb.db") where
  opens _ := rfl
  rowsKept files := by
    have created : ((files (ascii "mydb.db")).getD [] = shipped) ↔ files (ascii "mydb.db") = some shipped := by
      cases files (ascii "mydb.db") with
      | none => exact iff_of_false (by decide) (by simp)
      | some bytes => simp
    simp [oneRowSqlite,created]
  rowsOwn files other same := by simp [oneRowSqlite,same (ascii "mydb.db") rfl]

def serverFiles : Files := fun name =>
  if name = ascii "mydb.db" then some shipped
  else if name = ascii "test.txt" ∨ name = ascii "a" then some [] else none

def asks (command : BitVec 32) (name : Bytes) : Child where
  stack := List.replicate querySize 0
  query := (fillQuery command name).getD []
  recvs := [(oneByte 7,some 1)]
  garbage := 0
  sends := []

theorem asks_list : Lists (asks Q_LIST []) := ⟨by decide,rfl⟩

theorem catalogue_exact_test : ∃ after,
    run (step oneRowSqlite) serverFiles [asks Q_UPLOAD (ascii "test.txt")] = some after ∧
    ((∃ served, proc oneRowSqlite after (asks Q_LIST []) = some served ∧
      ∀ name ∈ emitted (step oneRowSqlite) (uploads oneRowSqlite) serverFiles [asks Q_UPLOAD (ascii "test.txt")],
        Reported oneRowSqlite after served.reply name) ↔
    (∀ record ∈ (oneRowSqlite.fileInfo serverFiles).1, (callback record).isSome) ∧
      ∀ name ∈ emitted (step oneRowSqlite) (uploads oneRowSqlite) serverFiles [asks Q_UPLOAD (ascii "test.txt")],
        Catalogued oneRowSqlite serverFiles name) := by
  have ends : (run (step oneRowSqlite) serverFiles [asks Q_UPLOAD (ascii "test.txt")]).isSome := by decide
  obtain ⟨after,ran⟩ := Option.isSome_iff_exists.mp ends
  exact ⟨after,ran,catalogue_exact oneRowSqlite_library (by decide) ran asks_list⟩

theorem upload_leaves_no_row : ∃ after,
    run (step oneRowSqlite) serverFiles [asks Q_UPLOAD (ascii "a")] = some after ∧
    emitted (step oneRowSqlite) (uploads oneRowSqlite) serverFiles [asks Q_UPLOAD (ascii "a")] = [ascii "a"] ∧
    ¬ ∃ served, proc oneRowSqlite after (asks Q_LIST []) = some served ∧
      ∀ name ∈ emitted (step oneRowSqlite) (uploads oneRowSqlite) serverFiles [asks Q_UPLOAD (ascii "a")],
        Reported oneRowSqlite after served.reply name := by
  have ends : (run (step oneRowSqlite) serverFiles [asks Q_UPLOAD (ascii "a")]).map
      (fun after => (oneRowSqlite.fileInfo after).1) = some [testRow] := by decide
  have stored : emitted (step oneRowSqlite) (uploads oneRowSqlite) serverFiles [asks Q_UPLOAD (ascii "a")] = [ascii "a"] := by
    decide
  obtain ⟨after,ran,rows⟩ := Option.map_eq_some_iff.mp ends
  refine ⟨after,ran,stored,?_⟩
  intro ⟨served,_,reported⟩
  obtain ⟨record,member,named,_⟩ := reported (ascii "a") (by rw [stored]; exact List.mem_singleton_self _)
  rw [rows,List.mem_singleton] at member
  subst member
  exact absurd named (by decide)

end NetworkEx.FileCatalogue
