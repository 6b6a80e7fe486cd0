import Mathlib.Logic.Function.Basic
import NetworkEx.CText
import NetworkEx.WireWords

namespace NetworkEx.FileProtocol
open ByteStreams CText WireWords

def MAXLINE : Nat := 1024
def Q_UPLOAD : BitVec 32 := 1
def Q_DOWNLOAD : BitVec 32 := 2
def Q_LIST : BitVec 32 := 3
def LOWER_BOUNDER : Bytes := List.replicate 41 61

-- struct Cquery is an int and a 64-byte name, 68 bytes on the wire.
def nameField : Nat := 64
def querySize : Nat := 68

def oneByte (b : UInt8) : Piece MAXLINE := ⟨[b],by simp [MAXLINE]⟩

-- A directory of files by name; open without O_CREAT finds only what is there.
abbrev Files := Bytes → Option Bytes

-- One record of a select: a column name and its value or NULL, per column.
abbrev Record := List (Bytes × Option Bytes)

-- The library the server links: opening mydb.db, and the rows of
-- `select * from file_info` with the code sqlite3_exec ends on.
structure Sqlite where
  sqlite3_open : Files → Int × Files
  fileInfo : Files → List Record × Int

-- The client's memset, htonl and sprintf. A longer name runs out of the struct.
def fillQuery (command : BitVec 32) (file : Bytes) : Option Bytes :=
  if file.length < nameField then
    some (be32 command ++ (file ++ List.replicate (nameField - file.length) 0))
  else none

-- The switch in proc. The handlers take f_name as a C string, which a field
-- without a NUL is not.
inductive Request where
  | upload (f_name : Option Bytes)
  | download (f_name : Option Bytes)
  | list
  | unknown

def request (query : Bytes) : Request :=
  let command := word32 query
  let f_name := cstring ((query.drop 4).take nameField)
  if command = Q_UPLOAD then .upload f_name
  else if command = Q_DOWNLOAD then .download f_name
  else if command = Q_LIST then .list
  else .unknown

-- One turn of a receiving loop is a recv result with what write answered to
-- it: a count, or none for -1. The file offset follows the counts.
def servUploadLoop (file : Bytes) (offset : Nat) : List (Piece MAXLINE × Option Nat) → Bytes
  | [] => file
  | (_,none) :: _ => file
  | (piece,some writen) :: rest =>
    servUploadLoop (writeAt file offset (piece.val.take writen)) (offset + writen) rest

-- open(filename,O_WRONLY) neither creates nor truncates.
def servFileUpload (sqlite : Sqlite) (files : Files) (filename : Bytes)
    (recvs : List (Piece MAXLINE × Option Nat)) : Int × Files :=
  match files filename with
  | none => (-1,files)
  | some old =>
    let stored := Function.update files filename (some (servUploadLoop old 0 recvs))
    let (ret,after) := sqlite.sqlite3_open stored
    if ret ≠ 0 then (-1,after) else (1,after)

-- One turn of a sending loop is a read result with what send answered to it.
-- The loop hands on the last value of sendn, and the bytes TCP took.
def servDownloadLoop (sendn : Int) : List (Piece MAXLINE × Int) → Int × Bytes
  | [] => (sendn,[])
  | (piece,answer) :: rest =>
    let taken := piece.val.take answer.toNat
    if answer < 0 then (answer,taken)
    else
      let (last,later) := servDownloadLoop answer rest
      (last,taken ++ later)

-- sendn has no initial value: `garbage` is what its memory held.
def servFileDownload (files : Files) (filename : Bytes) (garbage : Int)
    (sends : List (Piece MAXLINE × Int)) : Int × Bytes :=
  match files filename with
  | none => (-1,[])
  | some _ =>
    let (sendn,reply) := servDownloadLoop garbage sends
    if sendn = -1 then (-1,reply) else (1,reply)

-- sprintf("%10s = %s\n") pads the column name on the left to ten bytes.
def renderColumn (column : Bytes × Option Bytes) : Bytes :=
  List.replicate (10 - column.1.length) 32 ++ column.1 ++ ascii " = " ++ column.2.getD (ascii "NULL") ++ [10]

def callback (record : Record) : Option Bytes := do
  let columns ← record.mapM fun column => sprintf MAXLINE (renderColumn column)
  return columns.flatten ++ (LOWER_BOUNDER ++ [10])

def servFileList (sqlite : Sqlite) (files : Files) : Option (Int × Files × Bytes) :=
  let (ret,after) := sqlite.sqlite3_open files
  if ret ≠ 0 then some (-1,after,[])
  else do
    let texts ← (sqlite.fileInfo after).1.mapM callback
    return (1,after,texts.flatten)

-- What the kernel answers to one forked child: the old memory of `query`, the
-- first recv (empty for a result of zero or less), and the handler's loop.
structure Child where
  stack : Bytes
  query : Bytes
  recvs : List (Piece MAXLINE × Option Nat)
  garbage : Int
  sends : List (Piece MAXLINE × Int)

structure Served where
  handled : Int
  files : Files
  reply : Bytes

def proc (sqlite : Sqlite) (files : Files) (child : Child) : Option Served :=
  if child.query = [] then some ⟨-1,files,[]⟩
  else match request (overlay child.query child.stack) with
    | .upload none | .download none => none
    | .upload (some f_name) =>
      let (ret,after) := servFileUpload sqlite files f_name child.recvs
      some ⟨ret,after,[]⟩
    | .download (some f_name) =>
      let (ret,reply) := servFileDownload files f_name child.garbage child.sends
      some ⟨ret,files,reply⟩
    | .list => (servFileList sqlite files).map fun (ret,after,reply) => ⟨ret,after,reply⟩
    | .unknown => some ⟨1,files,[]⟩

-- The client's loop in upload: any send that is short or fails ends it.
def sendLoop : List (Piece MAXLINE × Int) → Int × Bytes
  | [] => (1,[])
  | (piece,sendn) :: rest =>
    if sendn ≠ piece.val.length then (-1,piece.val.take sendn.toNat)
    else
      let (ret,later) := sendLoop rest
      (ret,piece.val ++ later)

-- The result is the return value with the bytes given to TCP; none where
-- sprintf runs over the end of query.fname.
def upload (opened : Bool) (file : Bytes) (querySent : Int)
    (reads : List (Piece MAXLINE × Int)) : Option (Int × Bytes) :=
  if !opened then some (-1,[])
  else (fillQuery Q_UPLOAD file).map fun query =>
    if querySent ≤ 0 then (-1,[])
    else
      let (ret,content) := sendLoop reads
      (ret,query.take querySent.toNat ++ content)

-- The client's loop in download: any write that is short or fails ends it.
def recvLoop (file : Bytes) (offset : Nat) : List (Piece MAXLINE × Int) → Int × Bytes
  | [] => (1,file)
  | (piece,writen) :: rest =>
    let stored := writeAt file offset (piece.val.take writen.toNat)
    if writen ≠ piece.val.length then (-1,stored)
    else recvLoop stored (offset + piece.val.length) rest

-- download opens its local file with O_WRONLY before it asks the server.
-- The result is the return value, the query given to TCP and the local file.
def download (localFile : Option Bytes) (file : Bytes) (querySent : Int)
    (recvs : List (Piece MAXLINE × Int)) : Option (Int × Bytes × Option Bytes) :=
  match localFile with
  | none => some (-1,[],none)
  | some old => (fillQuery Q_DOWNLOAD file).map fun query =>
    if querySent ≤ 0 then (-1,[],some old)
    else
      let (ret,stored) := recvLoop old 0 recvs
      (ret,query.take querySent.toNat,some stored)

end NetworkEx.FileProtocol
