import NetworkEx.CText

namespace NetworkEx.PacketCapture
open ByteStreams CText

def PACKET_LENGTH : Nat := 65536

abbrev Buffer := {bytes : Bytes // bytes.length = PACKET_LENGTH}
abbrev Datagram := {bytes : Bytes // bytes.length < PACKET_LENGTH}

-- Captured data is printed from where it starts in the buffer.
inductive Printed where
  | nothing
  | notice (text : Bytes)
  | data (start : Nat) (text : Bytes)
  deriving DecidableEq

-- Every read of the buffer may go outside, and then there is no result. ihl is
-- the lower half of byte 0, doff the upper half of byte 12 of the TCP header.
def printTcp (buf : Bytes) : Option Printed := do
  let ihl ← buf[0]?.map fun b => b.toNat % 16
  let doff ← buf[ihl*4+12]?.map fun b => b.toNat / 16
  let data := ihl*4 + doff*4
  let text ← cstring (buf.drop data)
  return .data data text

def printPacket (buffer : Bytes) : Option Printed := do
  let protocol ← buffer[9]?
  if protocol = 1 then return .notice (ascii "I recv icmp Packet\n")
  else if protocol = 6 then printTcp buffer
  else if protocol = 17 then return .notice (ascii "I recv UDP Packet\n")
  else return .nothing

def memset (buffer : Buffer) : Buffer := ⟨buffer.val.map fun _ => 0,by rw [List.length_map]; exact buffer.property⟩

def recvfrom (datagram : Datagram) (buffer : Buffer) : Buffer :=
  ⟨overlay datagram.val buffer.val,by
    rw [overlay_length,buffer.property]
    exact Nat.max_eq_right (Nat.le_of_lt datagram.property)⟩

-- main's loop over the datagrams that come in, with what each one prints.
def capture (buffer : Buffer) : List Datagram → List (Option Printed)
  | [] => []
  | datagram :: rest =>
    let buffer := recvfrom datagram (memset buffer)
    printPacket buffer.val :: capture buffer rest

def byteAt (datagram : Datagram) (i : Nat) : UInt8 := datagram.val.getD i 0

def ihl (datagram : Datagram) : Nat := (byteAt datagram 0).toNat % 16
def doff (datagram : Datagram) : Nat := (byteAt datagram (ihl datagram * 4 + 12)).toNat / 16
def dataStart (datagram : Datagram) : Nat := ihl datagram * 4 + doff datagram * 4

-- An IP header has at least 20 bytes, and so has a TCP header behind it.
def userStart (datagram : Datagram) : Nat := max 5 (ihl datagram) * 4 + max 5 (doff datagram) * 4

-- The reads stayed inside, and the text is made of user data of this datagram.
def OnlyUserData (datagram : Datagram) : Option Printed → Prop
  | none => False
  | some (.data start text) => text = [] ∨ (userStart datagram ≤ start ∧ text <+: datagram.val.drop start)
  | some _ => True

-- The datagram is no TCP, or both headers have their 20 bytes, or nothing is printed.
def Proper (datagram : Datagram) : Prop :=
  byteAt datagram 9 ≠ 6 ∨ (5 ≤ ihl datagram ∧ 5 ≤ doff datagram) ∨ byteAt datagram (dataStart datagram) = 0

theorem captured (datagram : Datagram) (buffer : Buffer) :
    (recvfrom datagram (memset buffer)).val = overlay datagram.val (List.replicate PACKET_LENGTH 0) := by
  have cleared : (buffer.val.map fun _ => (0 : UInt8)) = List.replicate PACKET_LENGTH 0 := by
    rw [List.map_const',buffer.property]
  simp only [recvfrom,memset,cleared]

theorem captured_byte (datagram : Datagram) (buffer : Buffer) (inside : i < PACKET_LENGTH) :
    (recvfrom datagram (memset buffer)).val[i]? = some (byteAt datagram i) := by
  rw [captured,overlay_getElem?,byteAt,List.getD]
  by_cases own : i < datagram.val.length
  · rw [if_pos own,List.getElem?_eq_getElem own,Option.getD_some]
  · rw [if_neg own,List.getElem?_eq_none (Nat.le_of_not_lt own),List.getElem?_replicate,if_pos inside,Option.getD_none]

theorem fields_small (datagram : Datagram) : ihl datagram < 16 ∧ doff datagram < 16 := by
  have low := (byteAt datagram 0).toNat_lt
  have high := (byteAt datagram (ihl datagram * 4 + 12)).toNat_lt
  exact ⟨Nat.mod_lt _ (by decide),Nat.div_lt_of_lt_mul high⟩

theorem captured_text (datagram : Datagram) (buffer : Buffer) (inside : start < PACKET_LENGTH) :
    cstring ((recvfrom datagram (memset buffer)).val.drop start) = some (untilNul (datagram.val.drop start)) := by
  have short := datagram.property
  obtain ⟨n,whole⟩ : ∃ n, (recvfrom datagram (memset buffer)).val.drop start = datagram.val.drop start ++ 0 :: List.replicate n 0 := by
    refine ⟨PACKET_LENGTH - max start datagram.val.length - 1,?_⟩
    rw [captured,overlay,List.drop_append,List.drop_replicate,List.drop_replicate,← List.replicate_succ]
    congr 2
    omega
  rw [whole,cstring_untilNul]

theorem printTcp_reads (first : buf[0]? = some b) (second : buf[b.toNat % 16 * 4 + 12]? = some c)
    (third : cstring (buf.drop (b.toNat % 16 * 4 + c.toNat / 16 * 4)) = some text) :
    printTcp buf = some (.data (b.toNat % 16 * 4 + c.toNat / 16 * 4) text) := by
  simp only [printTcp,first,second,third,Option.map_some,Option.bind_eq_bind,Option.bind_some]
  rfl

theorem printPacket_reads (protocol : buf[9]? = some b) :
    printPacket buf = if b = 1 then some (.notice (ascii "I recv icmp Packet\n")) else if b = 6 then printTcp buf
      else if b = 17 then some (.notice (ascii "I recv UDP Packet\n")) else some .nothing := by
  rw [printPacket,protocol]
  rfl

theorem printed_tcp (datagram : Datagram) (buffer : Buffer) :
    printTcp (recvfrom datagram (memset buffer)).val =
      some (.data (dataStart datagram) (untilNul (datagram.val.drop (dataStart datagram)))) := by
  obtain ⟨low,high⟩ := fields_small datagram
  have header : ihl datagram * 4 + 12 < PACKET_LENGTH := by rw [PACKET_LENGTH]; omega
  have data : dataStart datagram < PACKET_LENGTH := by rw [PACKET_LENGTH,dataStart]; omega
  exact printTcp_reads (captured_byte datagram buffer (by decide)) (captured_byte datagram buffer header)
    (captured_text datagram buffer data)

theorem text_nil (datagram : Datagram) :
    untilNul (datagram.val.drop (dataStart datagram)) = [] ↔ byteAt datagram (dataStart datagram) = 0 := by
  rw [untilNul_nil,byteAt,List.getD,List.getD,List.getElem?_drop,Nat.add_zero]

theorem userStart_le (datagram : Datagram) :
    userStart datagram ≤ dataStart datagram ↔ 5 ≤ ihl datagram ∧ 5 ≤ doff datagram := by
  unfold userStart dataStart
  omega

theorem packet_exact (datagram : Datagram) (buffer : Buffer) :
    OnlyUserData datagram (printPacket (recvfrom datagram (memset buffer)).val) ↔ Proper datagram := by
  have protocol := printPacket_reads (captured_byte datagram buffer (by decide))
  have begins : untilNul (datagram.val.drop (dataStart datagram)) <+: datagram.val.drop (dataStart datagram) :=
    List.takeWhile_prefix _
  rw [protocol,Proper]
  by_cases tcp : byteAt datagram 9 = 6
  · have other : ¬ byteAt datagram 9 = 1 := by rw [tcp]; decide
    rw [if_neg other,if_pos tcp,printed_tcp,OnlyUserData,text_nil,userStart_le]
    simp only [tcp,begins,ne_eq,not_true_eq_false,false_or,and_true]
    exact or_comm
  · rw [if_neg tcp]
    split_ifs <;> exact iff_of_true trivial (.inl tcp)

-- The datagrams of a run may be any, and so may what malloc gave.
theorem capture_exact (buffer : Buffer) (datagrams : List Datagram) :
    List.Forall₂ OnlyUserData datagrams (capture buffer datagrams) ↔ ∀ datagram ∈ datagrams, Proper datagram := by
  induction datagrams generalizing buffer with
  | nil => exact iff_of_true .nil nofun
  | cons datagram rest ih =>
    rw [capture,List.forall₂_cons,List.forall_mem_cons,packet_exact,ih]

def headerless : Datagram :=
  ⟨[0x45,0,0,40,0,0,0,0,64,6,0,0,127,0,0,1,127,0,0,1] ++ ascii "ABCD" ++ List.replicate 16 0,by decide⟩

def anyBuffer : Buffer := ⟨List.replicate PACKET_LENGTH 0,List.length_replicate⟩

theorem header_printed :
    capture anyBuffer [headerless] = [some (.data 20 (ascii "ABCD"))] ∧
    ¬ List.Forall₂ OnlyUserData [headerless] (capture anyBuffer [headerless]) := by
  have protocol := printPacket_reads (captured_byte headerless anyBuffer (by decide))
  have other : ¬ byteAt headerless 9 = 1 := by decide
  have tcp : byteAt headerless 9 = 6 := by decide
  have printed : some (Printed.data (dataStart headerless) (untilNul (headerless.val.drop (dataStart headerless)))) =
      some (.data 20 (ascii "ABCD")) := by decide
  have captures : capture anyBuffer [headerless] = [some (.data 20 (ascii "ABCD"))] := by
    rw [capture,capture,protocol,if_neg other,if_pos tcp,printed_tcp,printed]
  refine ⟨captures,?_⟩
  rw [captures,List.forall₂_cons]
  rintro ⟨only,_⟩
  rcases only with none | ⟨behind,_⟩
  · cases none
  · exact absurd behind (by decide)

end NetworkEx.PacketCapture
