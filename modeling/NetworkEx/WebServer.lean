import NetworkEx.CText
import NetworkEx.CivilCalendar

namespace NetworkEx.WebServer
open ByteStreams CText CivilCalendar

def MAXLINE : Nat := 1024
def HEADERSIZE : Nat := 1024
def SERVER : Bytes := ascii "myserver/1.0 (Linux)"

-- struct user_request: C strings in arrays of 20, 255 and 80 bytes.
structure UserRequest where
  method : Bytes
  page : Bytes
  httpVer : Bytes
  deriving DecidableEq

inductive Field where
  | method
  | page
  | httpVer

-- strtok on what is left of the buffer: none where it runs out of the array,
-- else the token, if there is one, with the place it will go on from.
def strtok (token str : Bytes) : Option (Option Bytes × Bytes) :=
  match str.dropWhile fun b => decide (b ∈ token) with
  | [] => none
  | b :: rest =>
    if b = 0 then some (none,b :: rest)
    else
      let inside := fun b => decide (b ∉ token ∧ b ≠ 0)
      match (b :: rest).dropWhile inside with
      | [] => none
      | stop :: later => some (some ((b :: rest).takeWhile inside),if stop = 0 then stop :: later else later)

def token : Bytes := ascii " \r\n"

-- strcpy into the field; a longer token runs out of its array.
def UserRequest.put (request : UserRequest) (tr : Bytes) : Field → Option UserRequest
  | .method => (sprintf 20 tr).map fun tr => {request with method := tr}
  | .page => (sprintf 255 tr).map fun tr => {request with page := tr}
  | .httpVer => (sprintf 80 tr).map fun tr => {request with httpVer := tr}

def parseLoop : List Field → Option Bytes → Bytes → UserRequest → Option UserRequest
  | [],_,_,request => some request
  | _,none,_,request => some request
  | field :: later,some tr,str,request => do
    let request ← request.put tr field
    let (tr,str) ← strtok token str
    parseLoop later tr str request

-- The fields are zeroed before, so a missing token is an empty string.
def protocolParser (str : Bytes) : Option UserRequest := do
  let (tr,str) ← strtok token str
  parseLoop [.method,.page,.httpVer] tr str ⟨[],[],[]⟩

-- A file system object that does not change. The st_size of a special one (a
-- device, a pipe, a file under /proc) says nothing of its reads; they give none
-- at the end or on an error, as those of a directory always do.
inductive FileObject where
  | regular (bytes : Bytes)
  | directory (st_size : Nat)
  | special (st_size : Nat) (read : Nat → Option (Piece MAXLINE))

def FileObject.st_size : FileObject → Nat
  | .regular bytes => bytes.length
  | .directory st_size => st_size
  | .special st_size _ => st_size

def FileObject.read : FileObject → Nat → Option (Piece MAXLINE)
  | .regular bytes,k => (blocks MAXLINE (by decide) bytes)[k]?
  | .directory _,_ => none
  | .special _ read,k => read k

-- The machine around one request: `offset` is how far local time is ahead of
-- GMT, in seconds.
structure World where
  access : Bytes → Bool
  object : Bytes → FileObject
  time : Int
  offset : Int

structure Tm where
  wday : Nat
  mday : Nat
  mon : Nat
  year : Int
  hour : Nat
  min : Nat
  sec : Nat

-- An int that does not fit is not defined in C.
def int (n : Int) : Option Int := if -2 ^ 31 ≤ n ∧ n < 2 ^ 31 then some n else none

-- localtime answers NULL where tm_year does not fit.
def localtime (world : World) : Option Tm := do
  let days := (world.time + world.offset) / 86400
  let seconds := ((world.time + world.offset) % 86400).toNat
  let date := dateOfDays days
  let year ← int (date.year - 1900)
  return ⟨weekday days,date.day,date.month - 1,year,seconds / 3600,seconds / 60 % 60,seconds % 60⟩

def daytable : Bytes := ascii "Sun\x00Mon\x00Tue\x00Wed\x00Thu\x00Fri\x00Sat\x00" ++ [0]
def montable : Bytes :=
  ascii "Jan\x00Feb\x00Mar\x00Apr\x00May\x00Jun\x00Jul\x00Aug\x00Sep\x00Oct\x00Nov\x00Dec\x00" ++ [0]

def dateStr (tm : Tm) : Option Bytes := do
  let day ← cstring (daytable.drop (tm.wday * 4))
  let mon ← cstring (montable.drop (tm.mon * 4))
  let year ← int (tm.year + 1900)
  sprintf 80 (day ++ ascii ", " ++ decimal tm.mday ++ ascii " " ++ mon ++ ascii " " ++ decimal year ++ ascii " " ++
    decimal02 tm.hour ++ ascii ":" ++ decimal02 tm.min ++ ascii ":" ++ decimal02 tm.sec ++ ascii " GMT")

-- The arguments stand in the order of the source: date_str after http_ver,
-- codemsg after "Date: ".
def header (httpVer dateStr codemsg : Bytes) (contentLength : Int) : Option Bytes :=
  sprintf HEADERSIZE (httpVer ++ ascii " " ++ dateStr ++ ascii "\nDate: " ++ codemsg ++ ascii "\nServer: " ++ SERVER ++
    ascii "\nContent-Length: " ++ decimal contentLength ++
    ascii "\nConnection: close\nContent-Type: text/html; charset=UTF8\n\n")

def headerBlock (world : World) (httpVer codemsg : Bytes) (contentLength : Int) : Option Bytes := do
  let tm ← localtime world
  let date_str ← dateStr tm
  header httpVer date_str codemsg contentLength

-- The loop of read and write; `fuel` bounds the calls of read.
def sendLoop (read : Nat → Option (Piece MAXLINE)) : Nat → Option Bytes
  | 0 => none
  | fuel+1 =>
    match read 0 with
    | none => some []
    | some piece => (sendLoop (fun k => read (k+1)) fuel).map (piece.val ++ ·)

-- (int)st_size keeps the low 32 bits.
def intOf (size : Nat) : Int := (BitVec.ofNat 32 size).toInt

def sendpage (world : World) (fuel : Nat) (filename : Option Bytes) (httpVer codemsg : Bytes) : Option Bytes := do
  let contentLength := match filename with
    | some filename => intOf (world.object filename).st_size
    | none => intOf codemsg.length
  let header ← headerBlock world httpVer codemsg contentLength
  let body ← match filename with
    | some filename => sendLoop (world.object filename).read fuel
    | none => some codemsg
  return header ++ body

structure Call where
  looked : List Bytes
  filename : Option Bytes
  httpVer : Bytes
  codemsg : Bytes

-- All paths a request comes to: those of access, then that of stat and open.
def Call.paths (call : Call) : List Bytes := call.looked ++ call.filename.toList

def route (world : World) (root : Bytes) (request : UserRequest) : Option Call :=
  if request.method = ascii "GET" then
    (sprintf MAXLINE (root ++ request.page)).map fun page =>
      if world.access page then ⟨[page],some page,request.httpVer,ascii "200 OK"⟩
      else ⟨[page],none,request.httpVer,ascii "404 Not Found"⟩
  else some ⟨[],none,request.httpVer,ascii "500 Internal Server Error"⟩

-- The buffer is zeroed before the one read, `received` being none for a result
-- of zero or less. The result is the return value and all that was written.
def webserv (world : World) (root : Bytes) (received : Option (Piece MAXLINE)) (fuel : Nat) : Option (Int × Bytes) :=
  match received with
  | none => some (-1,[])
  | some received => do
    let request ← protocolParser (overlay received.val (List.replicate MAXLINE 0))
    let call ← route world root request
    let sent ← sendpage world fuel call.filename call.httpVer call.codemsg
    return (1,sent)

theorem strtok_token (taken : strtok token str = some (some tr,rest)) : ∀ b ∈ tr, b ∉ token ∧ b ≠ 0 := by
  unfold strtok at taken
  split at taken
  · cases taken
  · split at taken
    · cases taken
    · dsimp only at taken
      split at taken
      · cases taken
      · simp only [Option.some.injEq,Prod.mk.injEq] at taken
        rw [← taken.1]
        intro b member
        simpa using List.all_eq_true.mp List.all_takeWhile b member

-- What the parser leaves in the request: strings that fit their arrays, the
-- version being a token.
structure Parsed (request : UserRequest) : Prop where
  page : request.page.length < 255
  httpVer : request.httpVer.length < 80
  clean : ∀ b ∈ request.httpVer, b ∉ token ∧ b ≠ 0

theorem put_parsed (valid : Parsed request) (clean : ∀ b ∈ tr, b ∉ token ∧ b ≠ 0)
    (put : request.put tr field = some next) : Parsed next := by
  cases field with
  | method =>
    obtain ⟨_,_,rfl⟩ := Option.map_eq_some_iff.mp put
    exact ⟨valid.page,valid.httpVer,valid.clean⟩
  | page =>
    obtain ⟨text,copied,rfl⟩ := Option.map_eq_some_iff.mp put
    obtain ⟨rfl,fits⟩ := sprintf_parts copied
    exact ⟨fits,valid.httpVer,valid.clean⟩
  | httpVer =>
    obtain ⟨text,copied,rfl⟩ := Option.map_eq_some_iff.mp put
    obtain ⟨rfl,fits⟩ := sprintf_parts copied
    exact ⟨valid.page,fits,clean⟩

theorem parseLoop_parsed (valid : Parsed request) (clean : ∀ text ∈ tr, ∀ b ∈ text, b ∉ token ∧ b ≠ 0)
    (parsed : parseLoop fields tr str request = some result) : Parsed result := by
  induction fields generalizing tr str request with
  | nil => cases parsed; exact valid
  | cons field later ih =>
    cases tr with
    | none => cases parsed; exact valid
    | some tr =>
      simp only [parseLoop,Option.bind_eq_bind,Option.bind_eq_some_iff] at parsed
      obtain ⟨next,put,⟨following,rest⟩,taken,onward⟩ := parsed
      refine ih (put_parsed valid (clean tr rfl) put) ?_ onward
      intro text member
      cases member
      exact strtok_token taken

theorem protocolParser_parsed (accepted : protocolParser str = some request) : Parsed request := by
  simp only [protocolParser,Option.bind_eq_bind,Option.bind_eq_some_iff] at accepted
  obtain ⟨⟨tr,rest⟩,taken,parsed⟩ := accepted
  refine parseLoop_parsed ⟨by decide,by decide,by simp⟩ ?_ parsed
  intro text member
  cases member
  exact strtok_token taken

end NetworkEx.WebServer
