import NetworkEx.FileCatalogue
import NetworkEx.TextEcho

namespace NetworkEx.FileListing
open ByteStreams CText FileProtocol FileCatalogue

-- What recv brings into the cleared buffer is printed as a string, as an echo
-- loop writes it back.
def getList (segments : List (Piece MAXLINE)) : Option Bytes :=
  (TextEcho.echoLoop MAXLINE false segments).map (· ++ ascii "End!\n")

-- The rows that callback is called for; a database that does not open has none.
def rows (sqlite : Sqlite) (files : Files) : List Record :=
  let (ret,after) := sqlite.sqlite3_open files
  if ret ≠ 0 then [] else (sqlite.fileInfo after).1

def renderRow (record : Record) : Bytes := record.flatMap renderColumn ++ (LOWER_BOUNDER ++ [10])

def listing (rows : List Record) : Bytes := rows.flatMap renderRow

def CStrings (rows : List Record) : Prop :=
  ∀ record ∈ rows, ∀ column ∈ record, 0 ∉ column.1 ∧ ∀ value, column.2 = some value → 0 ∉ value

def Fits (rows : List Record) : Prop := ∀ record ∈ rows, ∀ column ∈ record, (renderColumn column).length < MAXLINE

structure Listed (sqlite : Sqlite) (files : Files) (segments : List (Piece MAXLINE)) : Prop where
  sent : ∃ ret after, servFileList sqlite files = some (ret,after,listing (rows sqlite files))
  printed : getList segments = some (listing (rows sqlite files) ++ ascii "End!\n")

theorem mapM_whole {f : α → Option β} {g : α → β} {p : α → Prop} (taken : ∀ a, p a → f a = some (g a))
    (refused : ∀ a, ¬ p a → f a = none) (list : List α) :
    ((∀ a ∈ list, p a) → list.mapM f = some (list.map g)) ∧ (¬ (∀ a ∈ list, p a) → list.mapM f = none) := by
  induction list with
  | nil => exact ⟨fun _ => rfl,fun none => absurd (by simp) none⟩
  | cons a rest ih =>
    rw [List.forall_mem_cons]
    constructor
    · intro all
      simp [taken a all.1,ih.1 all.2]
    · intro some
      by_cases first : p a
      · simp [taken a first,ih.2 fun rest => some ⟨first,rest⟩]
      · simp [refused a first]

theorem columns_sent (record : Record) :
    ((∀ column ∈ record, (renderColumn column).length < MAXLINE) → callback record = some (renderRow record)) ∧
      (¬ (∀ column ∈ record, (renderColumn column).length < MAXLINE) → callback record = none) := by
  have taken : ∀ column, (renderColumn column).length < MAXLINE → sprintf MAXLINE (renderColumn column) = some (renderColumn column) :=
    fun column fits => sprintf_fits fits
  have refused : ∀ column, ¬ (renderColumn column).length < MAXLINE → sprintf MAXLINE (renderColumn column) = none :=
    fun column long => if_neg long
  obtain ⟨all,some⟩ := mapM_whole taken refused record
  constructor
  · intro fits
    simp [callback,all fits,renderRow,List.flatMap]
  · intro long
    simp [callback,some long]

theorem servFileList_sent (sqlite : Sqlite) (files : Files) :
    (∃ ret after, servFileList sqlite files = some (ret,after,listing (rows sqlite files))) ↔ Fits (rows sqlite files) := by
  unfold servFileList rows
  cases sqlite.sqlite3_open files with
  | mk ret after =>
    by_cases failed : ret ≠ 0
    · simp only [if_pos failed]
      exact iff_of_true ⟨-1,after,rfl⟩ (by simp [Fits])
    · simp only [if_neg failed]
      obtain ⟨all,some⟩ := mapM_whole (fun record => (columns_sent record).1) (fun record => (columns_sent record).2)
        (sqlite.fileInfo after).1
      by_cases fits : Fits (sqlite.fileInfo after).1
      · rw [all fits]
        exact iff_of_true ⟨1,after,by simp [listing,List.flatMap]⟩ fits
      · rw [some fits]
        exact iff_of_false (by rintro ⟨ret,after,sent⟩; cases sent) fits

theorem renderColumn_clean (name : 0 ∉ column.1) (value : ∀ text, column.2 = some text → 0 ∉ text) :
    0 ∉ renderColumn column := by
  have literals : (0 : UInt8) ∉ ascii " = " ∧ (0 : UInt8) ∉ ascii "NULL" := by decide
  have shown : 0 ∉ column.2.getD (ascii "NULL") := by
    cases held : column.2 with
    | none => exact literals.2
    | some text => exact value text held
  have spaces : (0 : UInt8) ∉ List.replicate (10 - column.1.length) 32 := fun zero =>
    absurd (List.eq_of_mem_replicate zero) (by decide)
  simp [renderColumn,spaces,name,literals.1,shown]

theorem listing_clean (strings : CStrings table) : 0 ∉ listing table := by
  have separator : (0 : UInt8) ∉ LOWER_BOUNDER ++ [10] := by decide
  intro zero
  obtain ⟨record,member,here⟩ := List.mem_flatMap.mp zero
  rcases List.mem_append.mp here with inside | behind
  · obtain ⟨column,listed,byte⟩ := List.mem_flatMap.mp inside
    obtain ⟨name,value⟩ := strings record member column listed
    exact renderColumn_clean name value byte
  · exact separator behind

theorem getList_whole (clean : 0 ∉ joined segments) :
    getList segments = some (joined segments ++ ascii "End!\n") ↔ ∀ piece ∈ segments, piece.val.length < MAXLINE := by
  have echoed : TextEcho.echoLoop MAXLINE false segments = some (joined segments) ↔
      ∀ piece ∈ segments, piece.val.length < MAXLINE := TextEcho.echoLoop_exact clean
  rw [getList,← echoed,Option.map_eq_some_iff]
  simp

theorem listed_exact (strings : CStrings (rows sqlite files)) (delivered : joined segments = listing (rows sqlite files)) :
    Listed sqlite files segments ↔ Fits (rows sqlite files) ∧ ∀ piece ∈ segments, piece.val.length < MAXLINE := by
  have clean : 0 ∉ joined segments := by rw [delivered]; exact listing_clean strings
  have printed := getList_whole clean
  rw [delivered] at printed
  rw [← servFileList_sent,← printed]
  exact ⟨fun listed => ⟨listed.sent,listed.printed⟩,fun both => ⟨both.1,both.2⟩⟩

def oneColumn (value : Bytes) : Sqlite := ⟨fun files => (0,files),fun _ => ([[(ascii "name",some value)]],0)⟩

def noFiles : Files := fun _ => none

theorem render_length (value : Bytes) : (renderColumn (ascii "name",some value)).length = value.length + 14 := by
  have literals : (ascii "name").length = 4 ∧ (ascii " = ").length = 3 := by decide
  simp only [renderColumn,List.length_append,List.length_replicate,literals,Option.getD_some,List.length_singleton]
  omega

theorem listing_length (value : Bytes) : (listing (rows (oneColumn value) noFiles)).length = value.length + 56 := by
  have one : listing (rows (oneColumn value) noFiles) = renderColumn (ascii "name",some value) ++ (LOWER_BOUNDER ++ [10]) := by
    simp [rows,oneColumn,listing,renderRow]
  have separator : (LOWER_BOUNDER ++ [10]).length = 42 := by decide
  rw [one,List.length_append,render_length,separator]

theorem oneColumn_strings (clean : 0 ∉ value) : CStrings (rows (oneColumn value) noFiles) := by
  intro record member column listed
  cases List.mem_singleton.mp member
  cases List.mem_singleton.mp listed
  have name : (0 : UInt8) ∉ ascii "name" := by decide
  refine ⟨name,?_⟩
  rintro text ⟨⟩
  exact clean

theorem long_overruns (long : MAXLINE ≤ value.length + 14) : servFileList (oneColumn value) noFiles = none := by
  have refused : callback [(ascii "name",some value)] = none := by
    apply (columns_sent _).2
    intro fits
    have short := fits _ (List.mem_singleton_self _)
    rw [render_length] at short
    omega
  simp [servFileList,oneColumn,refused]

theorem full_unended (clean : 0 ∉ stream) (long : MAXLINE ≤ stream.length) :
    getList (blocks MAXLINE (by decide) stream) = none := by
  have some : 0 < stream.length := Nat.lt_of_lt_of_le (by decide) long
  have past : TextEcho.echoLoop MAXLINE false (blocks MAXLINE (by decide) stream) = none := by
    rw [blocks,dif_pos some]
    apply TextEcho.echoLoop_past
    · rw [List.length_take,Nat.min_eq_left long]
      exact Nat.le_refl _
    · exact fun zero => clean (List.mem_of_mem_take zero)
  rw [getList,past]
  rfl

theorem listed_exact_row :
    Listed (oneColumn (ascii "a.txt")) noFiles [⟨listing (rows (oneColumn (ascii "a.txt")) noFiles),by decide⟩] := by
  apply (listed_exact (oneColumn_strings (by decide)) (List.append_nil _)).mpr
  constructor
  · intro record member column listed
    cases List.mem_singleton.mp member
    cases List.mem_singleton.mp listed
    decide
  · decide

theorem full_segment_unprinted :
    servFileList (oneColumn (List.replicate 1024 97)) noFiles = none ∧
    ∃ segments, joined segments = listing (rows (oneColumn (List.replicate 1000 97)) noFiles) ∧
      getList segments = none ∧ ¬ Listed (oneColumn (List.replicate 1000 97)) noFiles segments := by
  have letters : ∀ n, (0 : UInt8) ∉ List.replicate n 97 := fun n zero => absurd (List.eq_of_mem_replicate zero) (by decide)
  constructor
  · apply long_overruns
    rw [List.length_replicate]
    decide
  · have long : MAXLINE ≤ (listing (rows (oneColumn (List.replicate 1000 97)) noFiles)).length := by
      rw [listing_length,List.length_replicate]
      decide
    have unended := full_unended (listing_clean (oneColumn_strings (letters 1000))) long
    refine ⟨_,joined_blocks _ _,unended,?_⟩
    intro listed
    have printed := listed.printed
    rw [unended] at printed
    cases printed

end NetworkEx.FileListing
