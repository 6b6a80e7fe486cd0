import NetworkEx.FileProtocol

namespace NetworkEx.FileAgreement
open ByteStreams CText WireWords FileProtocol

theorem fillQuery_parts (filled : fillQuery command file = some query) :
    file.length < nameField ∧ query = be32 command ++ (file ++ List.replicate (nameField - file.length) 0) := by
  unfold fillQuery at filled
  split at filled
  · rename_i short; exact ⟨short,(Option.some.inj filled).symm⟩
  · cases filled

theorem fillQuery_length (filled : fillQuery command file = some query) : query.length = querySize := by
  obtain ⟨short,rfl⟩ := fillQuery_parts filled
  simp only [List.length_append,be32_length,List.length_replicate,querySize,nameField] at short ⊢
  omega

theorem fillQuery_command (filled : fillQuery command file = some query) : word32 query = command := by
  obtain ⟨_,rfl⟩ := fillQuery_parts filled
  exact word32_be32 _ _

-- The name is read back whole: it has no NUL of its own, and the field, one
-- byte longer at least, still holds a zero behind it.
theorem fillQuery_name (filled : fillQuery command file = some query) (clean : 0 ∉ file) :
    cstring ((query.drop 4).take nameField) = some file := by
  obtain ⟨short,rfl⟩ := fillQuery_parts filled
  have field : ((be32 command ++ (file ++ List.replicate (nameField - file.length) 0)).drop 4).take nameField =
      file ++ 0 :: List.replicate (nameField - file.length - 1) 0 := by
    rw [List.drop_left' (be32_length command),List.take_of_length_le]
    · rw [← List.replicate_succ]; congr 2; omega
    · simp only [List.length_append,List.length_replicate]; omega
  rw [field]
  exact cstring_terminated clean

theorem request_upload (filled : fillQuery Q_UPLOAD file = some query) (clean : 0 ∉ file) :
    request query = .upload (some file) := by
  unfold request
  rw [fillQuery_command filled,fillQuery_name filled clean]
  rfl

theorem request_download (filled : fillQuery Q_DOWNLOAD file = some query) (clean : 0 ∉ file) :
    request query = .download (some file) := by
  unfold request
  rw [fillQuery_command filled,fillQuery_name filled clean]
  rfl

theorem queried_whole (whole : query.length = querySize) (stack : Bytes) (sized : stack.length = querySize) :
    overlay query stack = query := overlay_whole (by omega)

section Loops

variable {recvs : List (Piece MAXLINE × Option Nat)} {turns : List (Piece MAXLINE × Int)}

-- Every block that recv delivers is written where the last one ended, so a
-- whole loop is one write of the stream, however TCP cut it.
theorem servUploadLoop_complete (inside : offset ≤ file.length)
    (written : ∀ turn ∈ recvs, turn.2 = some turn.1.val.length) :
    servUploadLoop file offset recvs = writeAt file offset (joined (recvs.map Prod.fst)) := by
  induction recvs generalizing file offset with
  | nil => exact (writeAt_nil inside).symm
  | cons turn rest ih =>
    obtain ⟨piece,answer⟩ := turn
    have here : answer = some piece.val.length := written (piece,answer) (by simp)
    subst here
    rw [servUploadLoop,List.take_length,ih (writeAt_reaches inside piece.val)
      (fun turn member => written turn (List.mem_cons_of_mem _ member)),writeAt_writeAt inside]
    rfl

theorem recvLoop_complete (inside : offset ≤ file.length) (ended : recvLoop file offset turns = (1,stored)) :
    stored = writeAt file offset (joined (turns.map Prod.fst)) := by
  induction turns generalizing file offset with
  | nil => cases ended; exact (writeAt_nil inside).symm
  | cons turn rest ih =>
    obtain ⟨piece,writen⟩ := turn
    unfold recvLoop at ended
    by_cases short : writen ≠ piece.val.length
    · simp [short] at ended
    · have whole : writen = piece.val.length := not_not.mp short
      simp only [whole,ne_eq,not_true_eq_false,if_false,Int.toNat_natCast,List.take_length] at ended
      rw [ih (writeAt_reaches inside piece.val) ended,writeAt_writeAt inside]
      rfl

theorem sendLoop_complete (ended : sendLoop turns = (1,content)) : content = joined (turns.map Prod.fst) := by
  induction turns generalizing content with
  | nil => cases ended; rfl
  | cons turn rest ih =>
    obtain ⟨piece,sendn⟩ := turn
    unfold sendLoop at ended
    by_cases short : sendn ≠ piece.val.length
    · simp [short] at ended
    · rw [if_neg short] at ended
      cases later : sendLoop rest with
      | mk ret bytes =>
        rw [later] at ended
        cases ended
        rw [ih later]
        rfl

theorem servDownloadLoop_complete (garbage : Int) (sent : ∀ turn ∈ turns, turn.2 = turn.1.val.length) :
    (servDownloadLoop garbage turns).2 = joined (turns.map Prod.fst) := by
  induction turns generalizing garbage with
  | nil => rfl
  | cons turn rest ih =>
    obtain ⟨piece,answer⟩ := turn
    have here : answer = piece.val.length := sent (piece,answer) (by simp)
    have counted : ¬ answer < 0 := by omega
    unfold servDownloadLoop
    simp only [counted,if_false]
    rw [here,Int.toNat_natCast,List.take_length,ih _ (fun turn member => sent turn (List.mem_cons_of_mem _ member))]
    rfl

end Loops

theorem upload_parts (returned : upload opened file querySize reads = some (1,sent)) :
    ∃ query, fillQuery Q_UPLOAD file = some query ∧ sent = query ++ joined (reads.map Prod.fst) := by
  unfold upload at returned
  split at returned
  · simp at returned
  · obtain ⟨query,filled,result⟩ := Option.map_eq_some_iff.mp returned
    refine ⟨query,filled,?_⟩
    have asked : ¬ ((querySize : Nat) : Int) ≤ 0 := by decide
    rw [if_neg asked] at result
    cases loop : sendLoop reads with
    | mk ret content =>
      simp only [loop,Int.toNat_natCast,← fillQuery_length filled,List.take_length] at result
      cases result
      rw [sendLoop_complete loop]

theorem download_parts (returned : download localFile file querySize recvs = some (1,sent,stored)) :
    ∃ old, localFile = some old ∧ fillQuery Q_DOWNLOAD file = some sent ∧
      stored = some (overlay (joined (recvs.map Prod.fst)) old) := by
  unfold download at returned
  split at returned
  · simp at returned
  · rename_i old
    obtain ⟨query,filled,result⟩ := Option.map_eq_some_iff.mp returned
    have asked : ¬ ((querySize : Nat) : Int) ≤ 0 := by decide
    rw [if_neg asked] at result
    cases loop : recvLoop old 0 recvs with
    | mk ret bytes =>
      simp only [loop,Int.toNat_natCast,← fillQuery_length filled,List.take_length] at result
      cases result
      refine ⟨old,rfl,filled,?_⟩
      rw [recvLoop_complete (Nat.zero_le _) loop,writeAt_zero]

-- Opening the database may create it; it leaves the files that exist alone.
def LeavesFiles (sqlite : Sqlite) : Prop :=
  ∀ files name, (files name).isSome → (sqlite.sqlite3_open files).2 name = files name

-- One upload from end to end: the client read its file to the end and upload()
-- returned 1; the child got the query whole, the content in any segmentation,
-- and its writes were complete.
structure UploadRun (name content : Bytes) where
  reads : List (Piece MAXLINE × Int)
  sent : Bytes
  child : Child
  readAll : joined (reads.map Prod.fst) = content
  returned : upload true name querySize reads = some (1,sent)
  stacked : child.stack.length = querySize
  queried : child.query = sent.take querySize
  delivered : joined (child.recvs.map Prod.fst) = sent.drop querySize
  written : ∀ turn ∈ child.recvs, turn.2 = some turn.1.val.length

theorem UploadRun.stream (run : UploadRun name content) :
    fillQuery Q_UPLOAD name = some run.child.query ∧ joined (run.child.recvs.map Prod.fst) = content := by
  obtain ⟨query,filled,sent⟩ := upload_parts run.returned
  have length := fillQuery_length filled
  rw [run.queried,run.delivered,sent,List.take_left' length,List.drop_left' length]
  exact ⟨filled,run.readAll⟩

theorem servFileUpload_absent (absent : files name = none) :
    servFileUpload sqlite files name recvs = (-1,files) := by
  simp [servFileUpload,absent]

theorem servFileUpload_present (frame : LeavesFiles sqlite) (present : files name = some old)
    (recvs : List (Piece MAXLINE × Option Nat)) :
    (servFileUpload sqlite files name recvs).2 name = some (servUploadLoop old 0 recvs) := by
  have kept := frame (Function.update files name (some (servUploadLoop old 0 recvs))) name (by simp)
  rw [Function.update_self] at kept
  unfold servFileUpload
  simp only [present]
  split <;> exact kept

theorem servFileUpload_stored (frame : LeavesFiles sqlite) (present : files name = some old)
    (written : ∀ turn ∈ recvs, turn.2 = some turn.1.val.length) :
    (servFileUpload sqlite files name recvs).2 name = some (overlay (joined (recvs.map Prod.fst)) old) := by
  rw [servFileUpload_present frame present,servUploadLoop_complete (Nat.zero_le _) written,writeAt_zero]

theorem proc_upload (sqlite : Sqlite) (files : Files) (clean : 0 ∉ name) (run : UploadRun name content) :
    proc sqlite files run.child = some ⟨(servFileUpload sqlite files name run.child.recvs).1,
      (servFileUpload sqlite files name run.child.recvs).2,[]⟩ := by
  have filled := run.stream.1
  have length := fillQuery_length filled
  have asked : run.child.query ≠ [] := by
    intro empty; rw [empty] at length; cases length
  unfold proc
  rw [if_neg asked,queried_whole length _ run.stacked,request_upload filled clean]

-- The upload is stored exactly when the server already has a file of that
-- name which is no longer than the new content.
theorem upload_agreement_exact (frame : LeavesFiles sqlite) (clean : 0 ∉ name) (run : UploadRun name content) :
    ∃ served, proc sqlite files run.child = some served ∧
      (served.files name = some content ↔ ∃ old, files name = some old ∧ old.length ≤ content.length) := by
  refine ⟨_,proc_upload sqlite files clean run,?_⟩
  cases present : files name with
  | none => simp [servFileUpload_absent present,present]
  | some old =>
    have stored := servFileUpload_stored frame present run.written
    rw [run.stream.2] at stored
    simp [stored,overlay_eq_iff]

def creatingSqlite : Sqlite where
  sqlite3_open files := (0,fun name => if name = ascii "mydb.db" then some ((files name).getD []) else files name)
  fileInfo _ := ([],0)

theorem creatingSqlite_leaves : LeavesFiles creatingSqlite := by
  intro files name present
  obtain ⟨bytes,found⟩ := Option.isSome_iff_exists.mp present
  simp only [creatingSqlite]
  split <;> simp [found]

def oneFile (held : Bytes) : Files := fun name => if name = ascii "a" then some held else none

def oneByteUpload : UploadRun (ascii "a") [1] where
  reads := [(⟨[1],by decide⟩,1)]
  sent := be32 Q_UPLOAD ++ (ascii "a" ++ List.replicate 63 0) ++ [1]
  child := {
    stack := List.replicate 68 0,
    query := be32 Q_UPLOAD ++ (ascii "a" ++ List.replicate 63 0),
    recvs := [(⟨[1],by decide⟩,some 1)],
    garbage := 0,
    sends := [] }
  readAll := rfl
  returned := by decide
  stacked := rfl
  queried := by decide
  delivered := by decide
  written := by decide

theorem upload_agreement_short_file : ∃ served,
    proc creatingSqlite (oneFile []) oneByteUpload.child = some served ∧
      (served.files (ascii "a") = some [1] ↔
        ∃ old : Bytes, oneFile [] (ascii "a") = some old ∧ old.length ≤ ([1] : Bytes).length) :=
  upload_agreement_exact creatingSqlite_leaves (by decide) oneByteUpload

theorem upload_absent_or_longer_lost :
    (proc creatingSqlite (fun _ => none) oneByteUpload.child).map (fun served => served.files (ascii "a")) = some none ∧
    (proc creatingSqlite (oneFile [7,8]) oneByteUpload.child).map
      (fun served => served.files (ascii "a")) = some (some [1,8]) := by
  decide

-- One download from end to end: the child got the query whole, read the file
-- it has under that name to the end and sent all of it, the client received
-- the reply in any segmentation, and download() returned 1.
structure DownloadRun (sqlite : Sqlite) (files : Files) (localFile : Option Bytes) (name : Bytes) where
  recvs : List (Piece MAXLINE × Int)
  after : Option Bytes
  child : Child
  served : Served
  returned : download localFile name querySize recvs = some (1,child.query,after)
  stacked : child.stack.length = querySize
  answered : proc sqlite files child = some served
  readAll : ∀ content, files name = some content → joined (child.sends.map Prod.fst) = content
  sentAll : ∀ turn ∈ child.sends, turn.2 = turn.1.val.length
  delivered : joined (recvs.map Prod.fst) = served.reply

theorem servFileDownload_reply (read : ∀ content, files name = some content → joined (turns.map Prod.fst) = content)
    (sent : ∀ turn ∈ turns, turn.2 = turn.1.val.length) (garbage : Int) :
    (servFileDownload files name garbage turns).2 = (files name).getD [] := by
  unfold servFileDownload
  cases present : files name with
  | none => rfl
  | some content =>
    have reply := servDownloadLoop_complete garbage sent
    rw [read content present] at reply
    simp only [Option.getD_some]
    split <;> exact reply

theorem DownloadRun.reply (clean : 0 ∉ name) (run : DownloadRun sqlite files localFile name) :
    run.served.reply = (files name).getD [] := by
  obtain ⟨old,_,filled,_⟩ := download_parts run.returned
  have length := fillQuery_length filled
  have asked : run.child.query ≠ [] := by
    intro empty; rw [empty] at length; cases length
  have answered := run.answered
  unfold proc at answered
  rw [if_neg asked,queried_whole length _ run.stacked,request_download filled clean] at answered
  rw [← Option.some.inj answered]
  exact servFileDownload_reply run.readAll run.sentAll _

-- After a download() that returned 1 both sides agree exactly when the server
-- had the file and the client's old file was no longer than it.
theorem download_agreement_exact (clean : 0 ∉ name) (run : DownloadRun sqlite files localFile name) :
    (∃ content, files name = some content ∧ run.after = some content) ↔
      ∃ content old, files name = some content ∧ localFile = some old ∧ old.length ≤ content.length := by
  obtain ⟨old,opened,_,after⟩ := download_parts run.returned
  rw [run.delivered,run.reply clean] at after
  rw [after,opened]
  cases files name with
  | none => simp
  | some content => simp [overlay_eq_iff]

def downloadChild (held : List (Piece MAXLINE)) : Child where
  stack := List.replicate 68 0
  query := be32 Q_DOWNLOAD ++ (ascii "a" ++ List.replicate 63 0)
  recvs := []
  garbage := 0
  sends := held.map fun piece => (piece,piece.val.length)

def wholeDownload : DownloadRun creatingSqlite (oneFile [5]) (some [7]) (ascii "a") where
  recvs := [(⟨[5],by decide⟩,1)]
  after := some [5]
  child := downloadChild [⟨[5],by decide⟩]
  served := ⟨1,oneFile [5],[5]⟩
  returned := by decide
  stacked := rfl
  answered := rfl
  readAll := by rintro content ⟨⟩; rfl
  sentAll := by decide
  delivered := rfl

theorem download_agreement_whole :
    (∃ content, oneFile [5] (ascii "a") = some content ∧ wholeDownload.after = some content) ↔
      ∃ content old : Bytes, oneFile [5] (ascii "a") = some content ∧ some [7] = some old ∧ old.length ≤ content.length :=
  download_agreement_exact (by decide) wholeDownload

theorem download_missing_or_longer_kept :
    (proc creatingSqlite (fun _ => none) (downloadChild [])).map (fun served => (served.handled,served.reply)) = some (-1,[]) ∧
    download (some [7]) (ascii "a") querySize [] = some (1,(downloadChild []).query,some [7]) ∧
    (proc creatingSqlite (oneFile [5]) (downloadChild [⟨[5],by decide⟩])).map Served.reply = some [5] ∧
    download (some [7,8]) (ascii "a") querySize [(⟨[5],by decide⟩,1)] =
      some (1,(downloadChild [⟨[5],by decide⟩]).query,some [5,8]) := by
  decide

end NetworkEx.FileAgreement
