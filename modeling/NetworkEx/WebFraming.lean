import NetworkEx.WebHead

namespace NetworkEx.WebFraming
open ByteStreams CText HeaderText WebServer WebHead

-- The object a request gets the content of, if it gets one.
def requested (world : World) (root : Bytes) (request : UserRequest) : Option FileObject :=
  if request.method = ascii "GET" ∧ world.access (root ++ request.page) then some (world.object (root ++ request.page))
  else none

def Fits (root : Bytes) (request : UserRequest) : Prop :=
  request.method = ascii "GET" → (root ++ request.page).length < MAXLINE

-- The announced length is that of what follows the blank line, and a file
-- arrives whole.
def Framed (object : Option FileObject) (sent : Bytes) : Prop :=
  ∃ head body, readHead sent = some (head,body) ∧
    (head.field (ascii "Content-Length")).bind readInt = some (body.length : Int) ∧
    ∀ bytes, object = some (.regular bytes) → body = bytes

-- The reads of an object up to the first that gives nothing.
def Reads (read : Nat → Option (Piece MAXLINE)) (pieces : List (Piece MAXLINE)) : Prop :=
  (∀ k, k < pieces.length → read k = pieces[k]?) ∧ read pieces.length = none

-- Where st_size as an int tells how much can be read: of a regular file below
-- 2 GiB, of a directory whose size an int shows as zero, of a special object
-- that ends after as many bytes.
def Measured : Option FileObject → Prop
  | none => True
  | some (.regular bytes) => bytes.length < 2 ^ 31
  | some (.directory st_size) => st_size % 2 ^ 32 = 0
  | some (.special st_size read) => ∃ pieces, Reads read pieces ∧ intOf st_size = (joined pieces).length

theorem intOf_cases (size : Nat) :
    intOf size = if 2 * (size % 2 ^ 32) < 2 ^ 32 then ((size % 2 ^ 32 : Nat) : Int) else (size % 2 ^ 32 : Nat) - 2 ^ 32 := by
  rw [intOf,BitVec.toInt_eq_toNat_cond,BitVec.toNat_ofNat]
  rfl

theorem intOf_eq_iff (size : Nat) : intOf size = size ↔ size < 2 ^ 31 := by
  rw [intOf_cases]
  split <;> omega

theorem intOf_eq_zero (size : Nat) : intOf size = 0 ↔ size % 2 ^ 32 = 0 := by
  rw [intOf_cases]
  split <;> omega

theorem intOf_small (size : Nat) : (intOf size).natAbs < 10 ^ 10 := by
  rw [intOf_cases]
  split <;> omega

theorem reads_cons {read : Nat → Option (Piece MAXLINE)} (first : read 0 = some piece) :
    Reads read (piece :: pieces) ↔ Reads (fun k => read (k+1)) pieces := by
  constructor
  · intro reading
    obtain ⟨here,ended⟩ := reading
    refine ⟨fun k inside => ?_,ended⟩
    simpa using here (k+1) (Nat.succ_lt_succ inside)
  · intro reading
    obtain ⟨here,ended⟩ := reading
    refine ⟨fun k inside => ?_,ended⟩
    cases k with
    | zero => exact first
    | succ k => simpa using here k (Nat.lt_of_succ_lt_succ inside)

theorem sendLoop_iff {read : Nat → Option (Piece MAXLINE)} :
    sendLoop read fuel = some body ↔ ∃ pieces, Reads read pieces ∧ pieces.length < fuel ∧ body = joined pieces := by
  induction fuel generalizing read body with
  | zero => simp [sendLoop]
  | succ fuel ih =>
    unfold sendLoop
    cases first : read 0 with
    | none =>
      constructor
      · intro nothing
        cases nothing
        exact ⟨[],⟨by simp,first⟩,Nat.succ_pos fuel,rfl⟩
      · intro sent
        obtain ⟨pieces,⟨here,_⟩,_,rfl⟩ := sent
        cases pieces with
        | nil => rfl
        | cons piece pieces =>
          have present := here 0 (Nat.succ_pos _)
          rw [first] at present; cases present
    | some piece =>
      simp only [Option.map_eq_some_iff,ih]
      constructor
      · intro sending
        obtain ⟨_,⟨pieces,reads,enough,rfl⟩,rfl⟩ := sending
        exact ⟨piece :: pieces,(reads_cons first).mpr reads,Nat.succ_lt_succ enough,rfl⟩
      · intro sending
        obtain ⟨pieces,reads,enough,rfl⟩ := sending
        cases pieces with
        | nil =>
          have ended := reads.2
          rw [List.length_nil,first] at ended; cases ended
        | cons other pieces =>
          have same := reads.1 0 (Nat.succ_pos _)
          rw [first] at same
          cases same
          exact ⟨_,⟨pieces,(reads_cons first).mp reads,Nat.lt_of_succ_lt_succ enough,rfl⟩,rfl⟩

theorem route_call (world : World) (fits : Fits root request) :
    ∃ call, route world root request = some call ∧ call.httpVer = request.httpVer ∧
      (call.codemsg.length < 80 ∧ feed ∉ call.codemsg) ∧ call.filename.map world.object = requested world root request := by
  have found : (ascii "200 OK").length < 80 ∧ feed ∉ ascii "200 OK" := by decide
  have missing : (ascii "404 Not Found").length < 80 ∧ feed ∉ ascii "404 Not Found" := by decide
  have failed : (ascii "500 Internal Server Error").length < 80 ∧ feed ∉ ascii "500 Internal Server Error" := by decide
  by_cases get : request.method = ascii "GET"
  · by_cases readable : world.access (root ++ request.page) = true
    · refine ⟨⟨[root ++ request.page],some (root ++ request.page),request.httpVer,ascii "200 OK"⟩,?_,rfl,found,?_⟩
      · rw [route,if_pos get,sprintf_fits (fits get)]; simp [readable]
      · rw [requested,if_pos ⟨get,readable⟩]; rfl
    · refine ⟨⟨[root ++ request.page],none,request.httpVer,ascii "404 Not Found"⟩,?_,rfl,missing,?_⟩
      · rw [route,if_pos get,sprintf_fits (fits get)]; simp [readable]
      · rw [requested,if_neg (fun both => readable both.2)]; rfl
  · refine ⟨⟨[],none,request.httpVer,ascii "500 Internal Server Error"⟩,?_,rfl,failed,?_⟩
    · rw [route,if_neg get]
    · rw [requested,if_neg (fun both => get both.1)]; rfl

theorem route_fits (routed : route world root request = some call) : Fits root request := by
  intro get
  rw [route,if_pos get] at routed
  obtain ⟨page,printed,_⟩ := Option.map_eq_some_iff.mp routed
  exact (sprintf_parts printed).2

def announced (object : Option FileObject) (codemsg : Bytes) : Int :=
  match object with
  | some object => intOf object.st_size
  | none => intOf codemsg.length

def bodyOf (object : Option FileObject) (codemsg : Bytes) (fuel : Nat) : Option Bytes :=
  match object with
  | some object => sendLoop object.read fuel
  | none => some codemsg

theorem announced_small (object : Option FileObject) (codemsg : Bytes) : (announced object codemsg).natAbs < 10 ^ 10 := by
  cases object <;> exact intOf_small _

theorem sendpage_parts
    (built : headerBlock world httpVer codemsg (announced (filename.map world.object) codemsg) = some block) (fuel : Nat) :
    sendpage world fuel filename httpVer codemsg =
      (bodyOf (filename.map world.object) codemsg fuel).map (block ++ ·) := by
  cases filename with
  | none =>
    have built : headerBlock world httpVer codemsg (intOf codemsg.length) = some block := built
    simp [sendpage,built,bodyOf]
  | some filename =>
    have built : headerBlock world httpVer codemsg (intOf (world.object filename).st_size) = some block := built
    simp only [sendpage,built,bodyOf,Option.bind_eq_bind,Option.bind_some,Option.map_some]
    cases sendLoop (world.object filename).read fuel <;> rfl

theorem framed_iff (version : space ∉ httpVer ∧ feed ∉ httpVer) (text : feed ∉ codemsg)
    (built : headerBlock world httpVer codemsg contentLength = some block) (object : Option FileObject) (body : Bytes) :
    Framed object (block ++ body) ↔
      contentLength = body.length ∧ ∀ bytes, object = some (.regular bytes) → body = bytes := by
  have read := readHead_block version text built body
  have length := (written_fields httpVer (HttpDate.httpDate (world.time + world.offset)) codemsg contentLength).2.2
  constructor
  · intro right
    obtain ⟨head,rest,found,announced,whole⟩ := right
    cases read.symm.trans found
    rw [length,Option.bind_some,readInt_decimal] at announced
    exact ⟨Option.some.inj announced,whole⟩
  · intro right
    obtain ⟨announced,whole⟩ := right
    exact ⟨_,body,read,by rw [length,Option.bind_some,readInt_decimal,announced],whole⟩

theorem webserv_room (accepted : protocolParser (overlay received.val (List.replicate MAXLINE 0)) = some request)
    (served : webserv world root (some received) fuel = some (1,sent)) : Dated world ∧ Fits root request := by
  simp only [webserv,accepted,sendpage,Option.bind_eq_bind,Option.bind_some,Option.bind_eq_some_iff] at served
  obtain ⟨call,routed,_,⟨block,built,_⟩,_⟩ := served
  exact ⟨(headerBlock_parts built).1,route_fits routed⟩

theorem webserv_parts (accepted : protocolParser (overlay received.val (List.replicate MAXLINE 0)) = some request)
    (dated : Dated world) (fits : Fits root request) :
    ∃ codemsg block, codemsg.length < 80 ∧
      (∀ fuel, webserv world root (some received) fuel =
        (bodyOf (requested world root request) codemsg fuel).map fun body => (1,block ++ body)) ∧
      ∀ body, Framed (requested world root request) (block ++ body) ↔
        announced (requested world root request) codemsg = body.length ∧
          ∀ bytes, requested world root request = some (.regular bytes) → body = bytes := by
  have parsed := protocolParser_parsed accepted
  have version : space ∉ request.httpVer ∧ feed ∉ request.httpVer := by
    have tokens : space ∈ token ∧ feed ∈ token := by decide
    exact ⟨fun member => (parsed.clean _ member).1 tokens.1,fun member => (parsed.clean _ member).1 tokens.2⟩
  obtain ⟨call,routed,httpVer,⟨short,text⟩,object⟩ := route_call world fits
  obtain ⟨block,built⟩ := headerBlock_built dated parsed.httpVer short
    (announced_small (requested world root request) call.codemsg)
  refine ⟨call.codemsg,block,short,?_,framed_iff version text built (requested world root request)⟩
  intro fuel
  rw [← httpVer,← object] at built
  simp only [webserv,accepted,routed,sendpage_parts built,object,Option.bind_eq_bind,Option.bind_some]
  cases bodyOf (requested world root request) call.codemsg fuel <;> rfl

theorem blocks_read (bytes : Bytes) : Reads (FileObject.regular bytes).read (blocks MAXLINE (by decide) bytes) :=
  ⟨fun _ _ => rfl,List.getElem?_eq_none (Nat.le_refl _)⟩

theorem body_announced (short : codemsg.length < 80) (object : Option FileObject) :
    (∃ fuel body, bodyOf object codemsg fuel = some body ∧ announced object codemsg = body.length ∧
      ∀ bytes, object = some (.regular bytes) → body = bytes) ↔ Measured object := by
  cases object with
  | none =>
    have length : intOf codemsg.length = codemsg.length := (intOf_eq_iff _).mpr (by omega)
    exact iff_of_true ⟨0,codemsg,rfl,length,by simp⟩ trivial
  | some object =>
    cases object with
    | regular bytes =>
      constructor
      · intro served
        obtain ⟨fuel,body,sent,length,whole⟩ := served
        rw [whole bytes rfl] at length
        exact (intOf_eq_iff _).mp length
      · intro small
        have sent := sendLoop_iff.mpr ⟨_,blocks_read bytes,Nat.lt_succ_self _,rfl⟩
        rw [joined_blocks] at sent
        exact ⟨(blocks MAXLINE (by decide) bytes).length + 1,bytes,sent,(intOf_eq_iff _).mpr small,by simp⟩
    | directory st_size =>
      constructor
      · intro served
        obtain ⟨fuel,body,sent,length,_⟩ := served
        cases fuel with
        | zero => cases sent
        | succ fuel => cases sent; exact (intOf_eq_zero _).mp length
      · intro zero
        exact ⟨1,[],rfl,(intOf_eq_zero _).mpr zero,by simp⟩
    | special st_size read =>
      constructor
      · intro served
        obtain ⟨fuel,body,sent,length,_⟩ := served
        obtain ⟨pieces,reads,_,rfl⟩ := sendLoop_iff.mp sent
        exact ⟨pieces,reads,length⟩
      · intro measured
        obtain ⟨pieces,reads,length⟩ := measured
        exact ⟨_,joined pieces,sendLoop_iff.mpr ⟨pieces,reads,Nat.lt_succ_self _,rfl⟩,length,by simp⟩

theorem framing_exact (accepted : protocolParser (overlay received.val (List.replicate MAXLINE 0)) = some request) :
    (∃ fuel sent, webserv world root (some received) fuel = some (1,sent) ∧ Framed (requested world root request) sent) ↔
      Measured (requested world root request) ∧ Dated world ∧ Fits root request := by
  constructor
  · intro answered
    obtain ⟨fuel,sent,served,right⟩ := answered
    obtain ⟨dated,fits⟩ := webserv_room accepted served
    obtain ⟨codemsg,block,short,response,framed⟩ := webserv_parts accepted dated fits
    rw [response] at served
    obtain ⟨body,ended,same⟩ := Option.map_eq_some_iff.mp served
    cases same
    exact ⟨(body_announced short _).mp ⟨fuel,body,ended,(framed body).mp right⟩,dated,fits⟩
  · intro all
    obtain ⟨measured,dated,fits⟩ := all
    obtain ⟨codemsg,block,short,response,framed⟩ := webserv_parts accepted dated fits
    obtain ⟨fuel,body,ended,right⟩ := (body_announced short _).mpr measured
    exact ⟨fuel,block ++ body,by rw [response,ended]; rfl,(framed body).mpr right⟩

def indexRequest : Piece MAXLINE := ⟨ascii "GET /index.html HTTP/1.1\r\n\r\n",by decide⟩
def index : UserRequest := ⟨ascii "GET",ascii "/index.html",ascii "HTTP/1.1"⟩

theorem framing_exact_index : (∃ fuel sent, webserv gmtWorld (ascii "/srv") (some indexRequest) fuel = some (1,sent) ∧
      Framed (requested gmtWorld (ascii "/srv") index) sent) ↔
    Measured (requested gmtWorld (ascii "/srv") index) ∧ Dated gmtWorld ∧ Fits (ascii "/srv") index := by
  have accepted : protocolParser (overlay indexRequest.val (List.replicate MAXLINE 0)) = some index := by decide +kernel
  exact framing_exact accepted

def directoryWorld : World := {gmtWorld with object := fun _ => .directory 4096}

theorem directory_misframed : ∃ sent, webserv directoryWorld (ascii "/srv") (some indexRequest) 1 = some (1,sent) ∧
    (∃ head, readHead sent = some (head,[]) ∧ head.field (ascii "Content-Length") = some (ascii "4096")) ∧
    ¬ Framed (requested directoryWorld (ascii "/srv") index) sent := by
  have run : (webserv directoryWorld (ascii "/srv") (some indexRequest) 1).bind (fun result =>
      (readHead result.2).map fun (head,body) => (result.1,head.field (ascii "Content-Length"),body)) =
      some (1,some (ascii "4096"),[]) := by decide +kernel
  obtain ⟨⟨_,sent⟩,served,run⟩ := Option.bind_eq_some_iff.mp run
  obtain ⟨⟨head,_⟩,read,result⟩ := Option.map_eq_some_iff.mp run
  simp only [Prod.mk.injEq] at result
  obtain ⟨rfl,announced,rfl⟩ := result
  refine ⟨sent,served,⟨head,read,announced⟩,?_⟩
  intro answered
  obtain ⟨_,_,again,length,_⟩ := answered
  cases read.symm.trans again
  rw [announced] at length
  have number : readInt (ascii "4096") = some 4096 := by decide +kernel
  cases number.symm.trans length

end NetworkEx.WebFraming
