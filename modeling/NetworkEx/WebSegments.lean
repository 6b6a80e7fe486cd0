import NetworkEx.WebBounds

namespace NetworkEx.WebSegments
open ByteStreams CText HeaderText HttpDate TokenText WebServer WebHead WebFraming WebTokens WebBounds

-- A head below the size of buf, in segments. The one read of webserv brings the
-- first of them.
structure Delivery where
  first : Piece MAXLINE
  later : List (Piece MAXLINE)
  short : (joined (first :: later)).length < MAXLINE

def Delivery.head (d : Delivery) : Bytes := joined (d.first :: d.later)

def Delivery.whole (d : Delivery) : Piece MAXLINE :=
  ⟨d.head,by
    have present := d.first.property.1
    have short := d.short
    simp only [Delivery.head,joined_cons,List.length_append] at short ⊢
    omega⟩

-- The read comes to the end of the third token, where the head has one or is a
-- GET; of any other head it must not bring what looks like one.
def Reaches (d : Delivery) : Prop :=
  let tokens := words separates 3 (text d.head)
  if tokens.length = 3 ∨ tokens.getD 0 [] = ascii "GET" then extent separates 3 (text d.head) ≤ d.first.val.length
  else (words separates 3 (text d.first.val)).getD 0 [] ≠ ascii "GET"

theorem text_first (d : Delivery) : text d.first.val = (text d.head).take d.first.val.length := by
  rw [text,text,List.take_takeWhile,Delivery.head,joined_cons,List.take_left' rfl]

theorem head_contained (d : Delivery) (contained : Contained root d.head) :
    protocolParser (buffer d.head) = some (requestOf (words separates 3 (text d.head))) :=
  (parser_exact d.whole.property.2 _).mpr ⟨contained.scan,contained.copies,rfl⟩

theorem first_ended (d : Delivery) : Ended d.first.val := by
  have short := d.short
  rw [joined_cons,List.length_append] at short
  exact .inl (by omega)

theorem first_parsed (d : Delivery) (request : UserRequest) :
    protocolParser (buffer d.first.val) = some request ↔
      Fitting (words separates 3 (text d.first.val)) ∧ requestOf (words separates 3 (text d.first.val)) = request := by
  rw [parser_exact d.first.property.2]
  exact and_iff_right (.inl (first_ended d))

theorem torn_fitting (torn : Torn pieces tokens) (fitting : Fitting tokens) : Fitting pieces :=
  ⟨Nat.lt_of_le_of_lt (torn_shorter torn 0) fitting.method,Nat.lt_of_le_of_lt (torn_shorter torn 1) fitting.page,
    Nat.lt_of_le_of_lt (torn_shorter torn 2) fitting.httpVer⟩

theorem webserv_alike {received other : Piece MAXLINE}
    (parsed : protocolParser (buffer received.val) = some request) (parsed' : protocolParser (buffer other.val) = some request')
    (alike : ∀ world, route world root request = route world root request') (world : World) (fuel : Nat) :
    webserv world root (some received) fuel = webserv world root (some other) fuel := by
  have parsed : protocolParser (overlay received.val (List.replicate MAXLINE 0)) = some request := parsed
  have parsed' : protocolParser (overlay other.val (List.replicate MAXLINE 0)) = some request' := parsed'
  simp only [webserv,parsed,parsed',alike,Option.bind_eq_bind,Option.bind_some]

theorem route_failing (other : request.method ≠ ascii "GET") (other' : request'.method ≠ ascii "GET")
    (version : request.httpVer = request'.httpVer) (world : World) (root : Bytes) :
    route world root request = route world root request' := by
  rw [route,route,if_neg other,if_neg other',version]

theorem sendpage_block (sentPage : sendpage world fuel filename httpVer codemsg = some sent) :
    ∃ contentLength block body, headerBlock world httpVer codemsg contentLength = some block ∧ sent = block ++ body := by
  cases filename with
  | none =>
    simp only [sendpage,Option.bind_eq_bind,Option.bind_some,Option.bind_eq_some_iff] at sentPage
    obtain ⟨block,built,same⟩ := sentPage
    cases same
    exact ⟨_,block,_,built,rfl⟩
  | some filename =>
    simp only [sendpage,Option.bind_eq_bind,Option.bind_eq_some_iff] at sentPage
    obtain ⟨block,built,body,_,same⟩ := sentPage
    cases same
    exact ⟨_,block,_,built,rfl⟩

theorem sent_head {received : Piece MAXLINE} (parsed : protocolParser (buffer received.val) = some request)
    (served : webserv world root (some received) fuel = some (1,sent)) :
    ∃ call contentLength body, route world root request = some call ∧
      readHead sent =
        some (written call.httpVer (httpDate (world.time + world.offset)) call.codemsg contentLength,body) := by
  have parsed : protocolParser (overlay received.val (List.replicate MAXLINE 0)) = some request := parsed
  have version : space ∉ request.httpVer ∧ feed ∉ request.httpVer := by
    have tokens : space ∈ token ∧ feed ∈ token := by decide
    have clean := (protocolParser_parsed parsed).clean
    exact ⟨fun member => (clean _ member).1 tokens.1,fun member => (clean _ member).1 tokens.2⟩
  simp only [webserv,parsed,Option.bind_eq_bind,Option.bind_some,Option.bind_eq_some_iff] at served
  obtain ⟨call,routed,page,sentPage,ended⟩ := served
  cases ended
  obtain ⟨contentLength,block,body,built,rfl⟩ := sendpage_block sentPage
  obtain ⟨known,found,httpVer,⟨_,text⟩,_⟩ := route_call world (route_fits routed)
  cases routed.symm.trans found
  rw [← httpVer] at version
  exact ⟨call,contentLength,body,routed,readHead_block version text built body⟩

def askedWorld (root : Bytes) (request : UserRequest) : World :=
  ⟨fun path => decide (path = root ++ request.page),fun _ => .regular [],0,0⟩

theorem asked_dated (root : Bytes) (request : UserRequest) : Dated (askedWorld root request) := by
  have dated : Dated gmtWorld := ⟨by decide,by decide⟩
  exact dated

theorem empty_sent (codemsg : Bytes) : bodyOf (some (.regular [])) codemsg 1 = some [] := by
  have nothing : (FileObject.regular []).read 0 = none := by
    rw [FileObject.read,blocks,dif_neg (by simp)]
    rfl
  simp only [bodyOf,sendLoop,nothing]

theorem asked_served {received : Piece MAXLINE} (parsed : protocolParser (buffer received.val) = some request)
    (fits : Fits root request) : ∃ sent, webserv (askedWorld root request) root (some received) 1 = some (1,sent) := by
  obtain ⟨codemsg,block,_,response,_⟩ := webserv_parts parsed (asked_dated root request) fits
  rw [response,requested]
  split
  · have body := empty_sent codemsg
    simp only [askedWorld,body,Option.map_some]
    exact ⟨_,rfl⟩
  · exact ⟨_,rfl⟩

theorem route_asked (routed : route (askedWorld root asked) root request = some call) :
    call.httpVer = request.httpVer ∧ call.codemsg =
      if request.method = ascii "GET" then
        if request.page = asked.page then ascii "200 OK" else ascii "404 Not Found"
      else ascii "500 Internal Server Error" := by
  unfold route at routed
  by_cases get : request.method = ascii "GET"
  · rw [if_pos get] at routed ⊢
    obtain ⟨page,printed,rfl⟩ := Option.map_eq_some_iff.mp routed
    obtain ⟨rfl,_⟩ := sprintf_parts printed
    by_cases same : request.page = asked.page
    · simp [askedWorld,same]
    · simp [askedWorld,same]
  · rw [if_neg get] at routed ⊢
    cases routed
    exact ⟨rfl,rfl⟩

-- So the answers there tell two requests apart as far as they differ at all.
theorem answers_tell {received other : Piece MAXLINE} (parsed : protocolParser (buffer received.val) = some request)
    (parsed' : protocolParser (buffer other.val) = some request') (fits : Fits root request)
    (same : webserv (askedWorld root request) root (some other) 1 = webserv (askedWorld root request) root (some received) 1) :
    request'.httpVer = request.httpVer ∧ (request'.method = ascii "GET" ↔ request.method = ascii "GET") ∧
      (request.method = ascii "GET" → request'.page = request.page) := by
  obtain ⟨sent,served⟩ := asked_served parsed fits
  obtain ⟨call,_,_,routed,read⟩ := sent_head parsed served
  obtain ⟨call',_,_,routed',read'⟩ := sent_head parsed' (same.trans served)
  obtain ⟨version,message⟩ := route_asked routed
  obtain ⟨version',message'⟩ := route_asked routed'
  have heads := congrArg Prod.fst (Option.some.inj (read'.symm.trans read))
  have versions := congrArg Head.version heads
  have dates := congrArg (Head.field · (ascii "Date")) heads
  have messages : call'.codemsg = call.codemsg := by
    rw [(written_fields ..).1,(written_fields ..).1] at dates
    exact Option.some.inj dates
  have apart : ascii "200 OK" ≠ ascii "404 Not Found" ∧ ascii "200 OK" ≠ ascii "500 Internal Server Error" ∧
      ascii "404 Not Found" ≠ ascii "500 Internal Server Error" := by decide
  obtain ⟨missing,failing,neither⟩ := apart
  rw [message,message'] at messages
  refine ⟨version'.symm.trans (versions.trans version),?_⟩
  by_cases get : request.method = ascii "GET"
  · by_cases get' : request'.method = ascii "GET"
    · by_cases page : request'.page = request.page
      · exact ⟨iff_of_true get' get,fun _ => page⟩
      · rw [if_pos get,if_pos get',if_neg page,if_pos rfl] at messages
        exact absurd messages.symm missing
    · rw [if_pos get,if_neg get',if_pos rfl] at messages
      exact absurd messages.symm failing
  · by_cases get' : request'.method = ascii "GET"
    · rw [if_neg get,if_pos get'] at messages
      split at messages
      · exact absurd messages failing
      · exact absurd messages neither
    · exact ⟨iff_of_false get' get,fun get_ => absurd get_ get⟩

theorem first_tokens (d : Delivery) :
    if extent separates 3 (text d.head) ≤ d.first.val.length then
      words separates 3 (text d.first.val) = words separates 3 (text d.head)
    else Torn (words separates 3 (text d.first.val)) (words separates 3 (text d.head)) := by
  rw [text_first]
  exact words_take 3 (text d.head) d.first.val.length

theorem no_version {tokens : List Bytes} (most : tokens.length ≤ 3) (few : tokens.length ≠ 3) : tokens.getD 2 [] = [] :=
  List.getD_eq_default _ _ (by omega)

theorem alike_of_reaches (d : Delivery) (contained : Contained root d.head) (reaches : Reaches d) :
    ∃ request request', protocolParser (buffer d.first.val) = some request ∧ protocolParser (buffer d.head) = some request' ∧
      ∀ world, route world root request = route world root request' := by
  have parsed := head_contained d contained
  have tokens := first_tokens d
  by_cases enough : extent separates 3 (text d.head) ≤ d.first.val.length
  · rw [if_pos enough] at tokens
    refine ⟨_,_,(first_parsed d _).mpr ⟨?_,rfl⟩,parsed,?_⟩
    · rw [tokens]
      exact contained.copies
    · rw [tokens]
      exact fun world => rfl
  · rw [if_neg enough] at tokens
    unfold Reaches at reaches
    dsimp only at reaches
    by_cases judged : (words separates 3 (text d.head)).length = 3 ∨ (words separates 3 (text d.head)).getD 0 [] = ascii "GET"
    · rw [if_pos judged] at reaches
      exact absurd reaches enough
    · rw [if_neg judged] at reaches
      obtain ⟨few,other⟩ := not_or.mp judged
      have version := no_version (words_length 3 _) few
      have shorter := torn_shorter tokens 2
      rw [version] at shorter
      have version' := List.length_eq_zero_iff.mp (Nat.le_zero.mp shorter)
      exact ⟨_,_,(first_parsed d _).mpr ⟨torn_fitting tokens contained.copies,rfl⟩,parsed,
        fun world => route_failing reaches other (version'.trans version.symm) world root⟩

theorem torn_untold {pieces tokens : List Bytes}
    (last : (pieces.getD (tokens.length - 1) []).length < (tokens.getD (tokens.length - 1) []).length)
    (most : tokens.length ≤ 3) (judged : tokens.length = 3 ∨ tokens.getD 0 [] = ascii "GET")
    (version : pieces.getD 2 [] = tokens.getD 2 [])
    (method : pieces.getD 0 [] = ascii "GET" ↔ tokens.getD 0 [] = ascii "GET")
    (page : tokens.getD 0 [] = ascii "GET" → pieces.getD 1 [] = tokens.getD 1 []) : False := by
  by_cases three : tokens.length = 3
  · rw [three,version] at last
    exact Nat.lt_irrefl _ last
  · have get := judged.resolve_left three
    have some_ : tokens.length ≠ 0 := by
      intro none_
      rw [List.length_eq_zero_iff.mp none_] at get
      cases get
    by_cases two : tokens.length = 2
    · rw [two,page get] at last
      exact Nat.lt_irrefl _ last
    · have one : tokens.length = 1 := by omega
      rw [one,method.mpr get,get] at last
      exact Nat.lt_irrefl _ last

theorem reaches_of_alike (d : Delivery) (contained : Contained root d.head)
    (same : ∀ world fuel, webserv world root (some d.first) fuel = webserv world root (some d.whole) fuel) : Reaches d := by
  have parsed : protocolParser (buffer d.whole.val) = some (requestOf (words separates 3 (text d.head))) :=
    head_contained d contained
  have fitting : Fitting (words separates 3 (text d.first.val)) := by
    have tokens := first_tokens d
    split at tokens
    · rw [tokens]
      exact contained.copies
    · exact torn_fitting tokens contained.copies
  have parsed' := (first_parsed d _).mpr ⟨fitting,rfl⟩
  obtain ⟨version,method,page⟩ := answers_tell parsed parsed' contained.path (same _ 1)
  unfold Reaches
  dsimp only
  split
  · rename_i judged
    by_contra early
    have tokens := first_tokens d
    rw [if_neg early] at tokens
    have last := torn_last tokens (words_present 3 _)
    have most : (words separates 3 (text d.head)).length ≤ 3 := words_length 3 _
    exact torn_untold last most judged version method page
  · rename_i judged
    exact fun get => judged (.inr (method.mp get))

theorem segments_exact (root : Bytes) (d : Delivery) :
    (Bounded root d.whole ∧
      ∀ world fuel, webserv world root (some d.first) fuel = webserv world root (some d.whole) fuel) ↔
    Contained root d.head ∧ Reaches d := by
  rw [bounds_exact]
  constructor
  · intro ⟨contained,same⟩
    exact ⟨contained,reaches_of_alike d contained same⟩
  · intro ⟨contained,reaches⟩
    refine ⟨contained,?_⟩
    obtain ⟨request,request',parsed,parsed',alike⟩ := alike_of_reaches d contained reaches
    exact webserv_alike parsed parsed' alike

def cutRequest : Delivery where
  first := ⟨ascii "GET /ind",by decide⟩
  later := [⟨ascii "ex.html HTTP/1.1\r\n\r\n",by decide⟩]
  short := by decide

theorem segment_answered_alone :
    (webserv gmtWorld (ascii "/srv") (some cutRequest.first) 1).map (·.1) = some 1 ∧
    (webserv gmtWorld (ascii "/srv") (some cutRequest.first) 1) ≠ webserv gmtWorld (ascii "/srv") (some cutRequest.whole) 1 := by
  refine ⟨by decide +kernel,?_⟩
  intro same
  have versions := congrArg (Option.map fun result => result.2.take 8) same
  exact absurd versions (by decide +kernel)

end NetworkEx.WebSegments
