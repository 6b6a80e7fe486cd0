import NetworkEx.IcmpChecksum

namespace NetworkEx.IcmpCheck
open ByteStreams OnesComplement IcmpChecksum

def BUFFER : Nat := 1024

-- sizeof(struct icmp), which is what sendto gets.
def icmpSize : Nat := 28

-- The cleared buffer with the fields in front of it, and the same after its
-- checksum was stored.
def filled (header : Bytes) : Bytes := overlay header (List.replicate BUFFER 0)

def checked (host : Host) (header : Bytes) : Option Bytes :=
  (inCksum host (filled header) 1000).map (putCksum host (filled header))

-- icmp_type ICMP_ECHO, icmp_code 0, icmp_cksum 0, icmp_id getpid(), icmp_seq 15.
def request (host : Host) (pid : Nat) : Bytes := [8,0,0,0] ++ stored host pid ++ stored host 15

def sent (host : Host) (header : Bytes) : Option Bytes := (checked host header).map (·.take icmpSize)

-- What recvfrom gives: -1, or a packet with its IP header and its sender.
inductive Recv where
  | error
  | packet (source : UInt32) (bytes : Bytes)

-- What is printed. After a failed recvfrom no address was ever stored in from.
structure Report where
  source : Option UInt32
  type : Nat
  code : Nat
  seq : Nat
  iden : Nat
  deriving DecidableEq

inductive Outcome where
  | waiting
  | printed (report : Report)
  deriving DecidableEq

-- ip_hl is the lower half of the first byte, and rp points behind that header.
def headerLength (buffer : Bytes) : Nat := (buffer.getD 0 0).toNat % 16 * 4

def report (host : Host) (source : Option UInt32) (buffer : Bytes) : Report :=
  let hlen := headerLength buffer
  {source := source
   type := (buffer.getD hlen 0).toNat
   code := (buffer.getD (hlen+1) 0).toNat
   seq := word host (buffer.getD (hlen+6) 0) (buffer.getD (hlen+7) 0)
   iden := word host (buffer.getD (hlen+4) 0) (buffer.getD (hlen+5) 0)}

-- One recvfrom into the buffer of the request. Its failure prints a message
-- and goes on, and nothing is asked about the packet.
def icmpCheck (host : Host) (pid : Nat) (arrivals : List Recv) : Option Outcome :=
  (checked host (request host pid)).map fun buffer =>
    match arrivals with
    | [] => .waiting
    | .error :: _ => .printed (report host none buffer)
    | .packet source bytes :: _ => .printed (report host (some source) (overlay (bytes.take BUFFER) buffer))

theorem filled_length (short : header.length ≤ BUFFER) : (filled header).length = BUFFER := by
  rw [filled,overlay_length,List.length_replicate,Nat.max_eq_right short]

theorem request_length (host : Host) (pid : Nat) : (request host pid).length = 8 := by
  simp [request,stored_length]

theorem request_field (host : Host) (pid : Nat) : ((request host pid).drop 2).take 2 = [0,0] := by
  simp [request]

theorem checked_some (host : Host) (short : header.length ≤ BUFFER) : ∃ buffer, checked host header = some buffer ∧ buffer.length = BUFFER := by
  have whole : 1000 ≤ (filled header).length := by rw [filled_length short]; decide
  refine ⟨_,by rw [checked,inCksum_exact whole (by decide),Option.map_some],?_⟩
  have two : 2 ≤ (filled header).length := by omega
  rw [putCksum,overwrite_length two,stored_length,filled_length short]
  rfl

theorem filled_padded (short : header.length ≤ icmpSize) : ∀ b ∈ ((filled header).take 1000).drop icmpSize, b = 0 := by
  intro b member
  rw [List.drop_take] at member
  have inside := List.mem_of_mem_take member
  rw [filled,overlay,List.drop_append,List.drop_eq_nil_of_le short,List.nil_append,List.drop_replicate,
    List.drop_replicate] at inside
  exact List.eq_of_mem_replicate inside

theorem filled_field (field : (header.drop 2).take 2 = [0,0]) : ((filled header).drop 2).take 2 = [0,0] := by
  have length := congrArg List.length field
  rw [List.length_take,List.length_drop,List.length_cons,List.length_cons,List.length_nil] at length
  rw [filled,overlay,List.drop_append_of_le_length (by omega),
    List.take_append_of_le_length (by rw [List.length_drop]; omega),field]

theorem header_verifies (short : header.length ≤ icmpSize) (field : (header.drop 2).take 2 = [0,0]) (sender receiver : Host) :
    ∃ packet, sent sender header = some packet ∧ packet.length = icmpSize ∧ inCksum receiver packet icmpSize = some 0 := by
  have room : header.length ≤ BUFFER := Nat.le_trans short (by decide)
  have whole : 1000 ≤ (filled header).length := by rw [filled_length room]; decide
  obtain ⟨sum,summed,verifies⟩ := put_verifies (by decide : 4 ≤ icmpSize) (by decide) (by decide) (by decide) whole
    (filled_padded short) (filled_field field) sender receiver
  obtain ⟨buffer,stored,length⟩ := checked_some sender room
  have same : putCksum sender (filled header) sum = buffer := by
    rw [checked,summed,Option.map_some] at stored
    exact Option.some.inj stored
  refine ⟨buffer.take icmpSize,by rw [sent,stored,Option.map_some],?_,same ▸ verifies⟩
  rw [List.length_take,length]
  rfl

theorem request_verifies (sender receiver : Host) :
    (∀ p short long, 4 ≤ short → short ≤ long → long ≤ 131072 → short % 2 = 0 → long ≤ p.length →
      (∀ b ∈ (p.take long).drop short, b = 0) → (p.drop 2).take 2 = [0,0] →
      ∃ sum, inCksum sender p long = some sum ∧
        inCksum receiver ((putCksum sender p sum).take short) short = some 0) ∧
    (∀ header, header.length ≤ icmpSize → (header.drop 2).take 2 = [0,0] →
      ∃ packet, sent sender header = some packet ∧ packet.length = icmpSize ∧ inCksum receiver packet icmpSize = some 0) ∧
    ∀ pid, ∃ packet, sent sender (request sender pid) = some packet ∧ packet.length = icmpSize ∧
      inCksum receiver packet icmpSize = some 0 := by
  refine ⟨?_,?_,?_⟩
  · intro p short long wide inside small even whole padded field
    exact put_verifies wide inside small even whole padded field sender receiver
  · intro header short field
    exact header_verifies short field sender receiver
  · intro pid
    exact header_verifies (by rw [request_length]; decide) (request_field sender pid) sender receiver

theorem request_verifies_odd : ∃ sum, inCksum .little [8,0,0,0,1,0,15,0,0] 9 = some sum ∧
    inCksum .big ((putCksum .little [8,0,0,0,1,0,15,0,0] sum).take 8) 8 = some 0 :=
  (request_verifies .little .big).1 _ 8 9 (by decide) (by decide) (by decide) (by decide) (by decide) (by simp) rfl

-- The bytes at the place of an ICMP header behind the IP header. A reply copies
-- identifier and sequence number as they were sent.
structure EchoReply (host : Host) (pid : Nat) (bytes : Bytes) : Prop where
  type : bytes[headerLength bytes]? = some 0
  iden : (bytes.drop (headerLength bytes + 4)).take 2 = stored host pid
  seq : (bytes.drop (headerLength bytes + 6)).take 2 = stored host 15

-- What is printed is a reply to this process, and one that was received.
def OwnReplies (host : Host) (pid : Nat) (arrivals : List Recv) : Prop :=
  ∀ printed, icmpCheck host pid arrivals = some (.printed printed) →
    ∃ source bytes rest, arrivals = .packet source bytes :: rest ∧ EchoReply host pid bytes ∧
      printed.source = some source ∧ printed.type = 0 ∧ printed.iden = pid % 65536 ∧ printed.seq = 15

theorem stored_mod (host : Host) (w : Nat) : stored host (w % 65536) = stored host w := by
  have low : UInt8.ofNat (w % 65536) = UInt8.ofNat w := by
    apply byte_congr
    omega
  have high : UInt8.ofNat (w % 65536 / 256) = UInt8.ofNat (w / 256) := by
    apply byte_congr
    omega
  cases host <;> simp only [stored,low,high]

theorem word_at {region : Bytes} (found : (region.drop i).take 2 = stored host w) :
    word host (region.getD i 0) (region.getD (i+1) 0) = w % 65536 := by
  obtain ⟨a,b,bytes,back⟩ := @word_stored (w % 65536) host (by omega)
  rw [← stored_mod,bytes] at found
  have first : region[i]? = some a := by
    have here := congrArg (·[0]?) found
    simpa [List.getElem?_take,List.getElem?_drop] using here
  have second : region[i+1]? = some b := by
    have here := congrArg (·[1]?) found
    simpa [List.getElem?_take,List.getElem?_drop] using here
  rw [List.getD_eq_getElem?_getD,List.getD_eq_getElem?_getD,first,second,Option.getD_some,Option.getD_some,back]

theorem front_kept {bytes : Bytes} (inside : i + n ≤ bytes.length) (room : i + n ≤ BUFFER) (buffer : Bytes) :
    ((overlay (bytes.take BUFFER) buffer).drop i).take n = (bytes.drop i).take n := by
  apply List.ext_getElem?
  intro k
  by_cases here : k < n
  · have covered : i + k < (bytes.take BUFFER).length := by rw [List.length_take]; omega
    rw [List.getElem?_take_of_lt here,List.getElem?_take_of_lt here,List.getElem?_drop,List.getElem?_drop,
      overlay_getElem?,if_pos covered,List.getElem?_take_of_lt (by omega)]
  · rw [List.getElem?_eq_none (by rw [List.length_take]; omega),List.getElem?_eq_none (by rw [List.length_take]; omega)]

theorem two_bytes {bytes : Bytes} (found : (bytes.drop i).take 2 = stored host w) : i + 2 ≤ bytes.length := by
  have length := congrArg List.length found
  rw [List.length_take,List.length_drop,stored_length] at length
  omega

theorem headerLength_le (buffer : Bytes) : headerLength buffer ≤ 60 := by
  unfold headerLength
  omega

theorem report_own (own : EchoReply host pid bytes) (source : Option UInt32) (buffer : Bytes) :
    (report host source (overlay (bytes.take BUFFER) buffer)).type = 0 ∧
      (report host source (overlay (bytes.take BUFFER) buffer)).iden = pid % 65536 ∧
      (report host source (overlay (bytes.take BUFFER) buffer)).seq = 15 := by
  have room := headerLength_le bytes
  have idenThere := two_bytes own.iden
  have seqThere := two_bytes own.seq
  have kept : ∀ i, i < bytes.length → i < BUFFER → (overlay (bytes.take BUFFER) buffer)[i]? = bytes[i]? := by
    intro i inside low
    rw [overlay_getElem?,if_pos (by rw [List.length_take]; omega),List.getElem?_take_of_lt low]
  have header : headerLength (overlay (bytes.take BUFFER) buffer) = headerLength bytes := by
    rw [headerLength,headerLength,List.getD_eq_getElem?_getD,List.getD_eq_getElem?_getD,kept 0 (by omega) (by decide)]
  refine ⟨?_,?_,?_⟩ <;> simp only [report,header]
  · rw [List.getD_eq_getElem?_getD,kept _ (by omega) (by unfold BUFFER; omega),own.type]
    rfl
  · refine word_at ?_
    rw [front_kept idenThere (by unfold BUFFER; omega),own.iden]
  · have fifteen : 15 % 65536 = 15 := rfl
    rw [← fifteen]
    refine word_at ?_
    rw [front_kept seqThere (by unfold BUFFER; omega),own.seq]

theorem icmpCheck_some (host : Host) (pid : Nat) : ∃ buffer, checked host (request host pid) = some buffer := by
  obtain ⟨buffer,stored,_⟩ := @checked_some (request host pid) host (by rw [request_length]; decide)
  exact ⟨buffer,stored⟩

-- The first thing that recvfrom gives must be the reply, or nothing comes.
theorem own_replies_exact (host : Host) (pid : Nat) (arrivals : List Recv) :
    OwnReplies host pid arrivals ↔
      arrivals = [] ∨ ∃ source bytes rest, arrivals = .packet source bytes :: rest ∧ EchoReply host pid bytes := by
  obtain ⟨buffer,found⟩ := icmpCheck_some host pid
  constructor
  · intro own
    match arrivals with
    | [] => exact .inl rfl
    | .error :: rest =>
      obtain ⟨_,_,_,other,_⟩ := own _ (by rw [icmpCheck,found,Option.map_some])
      cases other
    | .packet source bytes :: rest =>
      obtain ⟨_,_,_,same,reply,_⟩ := own _ (by rw [icmpCheck,found,Option.map_some])
      cases same
      exact .inr ⟨source,bytes,rest,rfl,reply⟩
  · rintro (rfl | ⟨source,bytes,rest,rfl,reply⟩) printed shown
    · rw [icmpCheck,found,Option.map_some] at shown
      cases shown
    · rw [icmpCheck,found,Option.map_some] at shown
      cases shown
      obtain ⟨type,iden,seq⟩ := report_own reply (some source) buffer
      exact ⟨source,bytes,rest,rfl,reply,rfl,type,iden,seq⟩

def ownRequest : Bytes :=
  [69,0,0,48,0,0,64,0,64,1,60,203,127,0,0,1,127,0,0,1] ++ [8,0,231,255,1,0,15,0] ++ List.replicate 20 0

theorem own_request_reported : ¬ OwnReplies .little 1 [.packet 0x7f000001 ownRequest] ∧ ¬ OwnReplies .little 1 [.error] := by
  obtain ⟨buffer,found⟩ := icmpCheck_some .little 1
  constructor
  · intro own
    obtain ⟨_,_,_,same,reply,_⟩ := own _ (by rw [icmpCheck,found,Option.map_some])
    cases same
    exact absurd reply.type (by decide)
  · intro own
    obtain ⟨_,_,_,other,_⟩ := own _ (by rw [icmpCheck,found,Option.map_some])
    cases other

end NetworkEx.IcmpCheck
