import NetworkEx.WebFraming
import NetworkEx.WebTokens

namespace NetworkEx.WebBounds
open ByteStreams CText TokenText WebServer WebHead WebFraming WebTokens

-- Nothing webserv does with a read leaves its arrays: the calls of strtok, the
-- three copies, the path it prints, the header, for every date it prints there.
def Bounded (root : Bytes) (received : Piece MAXLINE) : Prop :=
  ∃ request, protocolParser (buffer received.val) = some request ∧
    (request.method = ascii "GET" → (sprintf MAXLINE (root ++ request.page)).isSome) ∧
    ∀ world call tm date contentLength, route world root request = some call → localtime world = some tm →
      dateStr tm = some date → -2 ^ 31 ≤ contentLength ∧ contentLength < 2 ^ 31 →
        (header call.httpVer date call.codemsg contentLength).isSome

-- A NUL, or a fourth token that a separator ends, comes before the end of buf.
-- The tokens are short, and that of a GET leaves the root its room in page.
structure Contained (root received : Bytes) : Prop where
  scan : Ended received ∨ Closed separates 4 received
  copies : Fitting (words separates 3 (text received))
  path : (words separates 3 (text received)).getD 0 [] = ascii "GET" →
    (root ++ (words separates 3 (text received)).getD 1 []).length < MAXLINE

theorem sprintf_isSome (capacity : Nat) (text : Bytes) : (sprintf capacity text).isSome ↔ text.length < capacity := by
  unfold sprintf
  split
  · rename_i fits
    exact iff_of_true rfl fits
  · rename_i long
    exact iff_of_false (by simp) long

theorem dateStr_length (printed : dateStr tm = some date) : date.length < 80 := by
  simp only [dateStr,Option.bind_eq_bind,Option.bind_eq_some_iff] at printed
  obtain ⟨day,_,mon,_,year,_,printed⟩ := printed
  obtain ⟨rfl,short⟩ := sprintf_parts printed
  exact short

-- A version, a date and a message from arrays of 80 leave the header far from
-- its end.
theorem header_room (version : httpVer.length < 80) (day : date.length < 80) (message : codemsg.length < 80)
    (number : -2 ^ 31 ≤ contentLength ∧ contentLength < 2 ^ 31) : (header httpVer date codemsg contentLength).isSome := by
  have digits : (decimal contentLength).length ≤ 11 := decimal_length (by decide) (by omega)
  have literals : (ascii " ").length = 1 ∧ (ascii "\nDate: ").length = 7 ∧ (ascii "\nServer: ").length = 9 ∧
      SERVER.length = 20 ∧ (ascii "\nContent-Length: ").length = 17 ∧
      (ascii "\nConnection: close\nContent-Type: text/html; charset=UTF8\n\n").length = 58 := by decide
  rw [header,sprintf_isSome]
  simp only [List.length_append,literals,HEADERSIZE]
  omega

theorem route_parts (routed : route world root request = some call) :
    call.httpVer = request.httpVer ∧ call.codemsg.length < 80 := by
  obtain ⟨same,found,httpVer,⟨short,_⟩,_⟩ := route_call world (route_fits routed)
  cases routed.symm.trans found
  exact ⟨httpVer,short⟩

theorem bounds_exact (root : Bytes) (received : Piece MAXLINE) : Bounded root received ↔ Contained root received.val := by
  have parser := parser_exact received.property.2
  constructor
  · intro bounded
    obtain ⟨request,accepted,path,_⟩ := bounded
    obtain ⟨scan,copies,rfl⟩ := (parser request).mp accepted
    refine ⟨scan,copies,?_⟩
    intro get
    exact (sprintf_isSome _ _).mp (path get)
  · intro contained
    have accepted := (parser _).mpr ⟨contained.scan,contained.copies,rfl⟩
    refine ⟨requestOf (words separates 3 (text received.val)),accepted,?_,?_⟩
    · intro get
      exact (sprintf_isSome _ _).mpr (contained.path get)
    · intro world call tm date contentLength routed _ printed number
      obtain ⟨version,message⟩ := route_parts routed
      apply header_room _ (dateStr_length printed) message number
      rw [version]
      exact contained.copies.httpVer

theorem letters_fill : 0 < (List.replicate MAXLINE (65 : UInt8)).length ∧ (List.replicate MAXLINE (65 : UInt8)).length ≤ MAXLINE := by
  rw [List.length_replicate]
  decide

def fullRead : Piece MAXLINE := ⟨List.replicate MAXLINE 65,letters_fill⟩
def longMethod : Piece MAXLINE := ⟨List.replicate 20 65 ++ ascii " / HTTP/1.1\r\n\r\n",by decide⟩

theorem reads_leave_arrays :
    strtok token (buffer fullRead.val) = none ∧ ¬ Bounded (ascii "/srv") fullRead ∧
    protocolParser (buffer longMethod.val) = none ∧ ¬ Bounded (ascii "/srv") longMethod := by
  have full : strtok token (buffer fullRead.val) = none := by decide +kernel
  have copied : protocolParser (buffer longMethod.val) = none := by decide +kernel
  refine ⟨full,?_,copied,?_⟩
  · intro bounded
    obtain ⟨request,accepted,_⟩ := bounded
    rw [protocolParser,full] at accepted
    cases accepted
  · intro bounded
    obtain ⟨request,accepted,_⟩ := bounded
    cases copied.symm.trans accepted

end NetworkEx.WebBounds
