import NetworkEx.ByteStreams

namespace NetworkEx.WireWords
open ByteStreams

-- htonl and htons as stored in memory, most significant byte first. Reading
-- back with ntohl inverts them on a host of either byte order.
def be32 (word : BitVec 32) : Bytes :=
  [⟨word.extractLsb' 24 8⟩,⟨word.extractLsb' 16 8⟩,⟨word.extractLsb' 8 8⟩,⟨word.extractLsb' 0 8⟩]

def be16 (word : BitVec 16) : Bytes := [⟨word.extractLsb' 8 8⟩,⟨word.extractLsb' 0 8⟩]

def word32 (bytes : Bytes) : BitVec 32 :=
  (bytes.getD 0 0).toBitVec ++ (bytes.getD 1 0).toBitVec ++ (bytes.getD 2 0).toBitVec ++ (bytes.getD 3 0).toBitVec

def word16 (bytes : Bytes) : BitVec 16 := (bytes.getD 0 0).toBitVec ++ (bytes.getD 1 0).toBitVec

@[simp] theorem be32_length (word : BitVec 32) : (be32 word).length = 4 := rfl
@[simp] theorem be16_length (word : BitVec 16) : (be16 word).length = 2 := rfl

theorem word32_be32 (word : BitVec 32) (rest : Bytes) : word32 (be32 word ++ rest) = word := by
  simp only [word32,be32,List.cons_append,List.getD_cons_zero,List.getD_cons_succ]
  rw [BitVec.extractLsb'_append_extractLsb'_eq_extractLsb' (show 24 = 16 + 8 from rfl),
    BitVec.extractLsb'_append_extractLsb'_eq_extractLsb' (show 16 = 8 + 8 from rfl),
    BitVec.extractLsb'_append_extractLsb'_eq_extractLsb' (show 8 = 0 + 8 from rfl)]
  exact BitVec.extractLsb'_eq_self

theorem be32_word32 (bytes : Bytes) :
    be32 (word32 bytes) = [bytes.getD 0 0,bytes.getD 1 0,bytes.getD 2 0,bytes.getD 3 0] := by
  simp (disch := decide) only [be32,word32,BitVec.extractLsb'_append_eq_of_le,Nat.reduceSub,
    BitVec.extractLsb'_append_eq_right,BitVec.extractLsb'_eq_self]

theorem word32_congr {bytes other : Bytes} (same : bytes.take 4 = other.take 4) : word32 bytes = word32 other := by
  have byte : ∀ i, i < 4 → bytes.getD i 0 = other.getD i 0 := by
    intro i inside
    have at_ := congrArg (·[i]?) same
    simp only [List.getElem?_take_of_lt inside] at at_
    rw [List.getD_eq_getElem?_getD,List.getD_eq_getElem?_getD,at_]
  unfold word32
  rw [byte 0 (by decide),byte 1 (by decide),byte 2 (by decide),byte 3 (by decide)]

inductive ByteOrder where
  | little
  | big
  deriving DecidableEq

-- A word in a host's memory, and the word that a host takes four bytes for.
def hostBytes (order : ByteOrder) (word : BitVec 32) : Bytes :=
  match order with
  | .little => (be32 word).reverse
  | .big => be32 word

def hostWord (order : ByteOrder) (bytes : Bytes) : BitVec 32 :=
  match order with
  | .little => word32 bytes.reverse
  | .big => word32 bytes

def htonl (order : ByteOrder) (word : BitVec 32) : BitVec 32 := hostWord order (be32 word)
def ntohl (order : ByteOrder) (word : BitVec 32) : BitVec 32 := word32 (hostBytes order word)

theorem hostBytes_hostWord (order : ByteOrder) (word : BitVec 32) : hostBytes order (hostWord order (be32 word)) = be32 word := by
  cases order with
  | little =>
    rw [hostBytes,hostWord,be32_word32]
    rfl
  | big =>
    rw [hostBytes,hostWord,be32_word32]
    rfl

theorem ntohl_htonl (order : ByteOrder) (word : BitVec 32) : ntohl order (htonl order word) = word := by
  rw [ntohl,htonl,hostBytes_hostWord]
  exact word32_be32 word []

theorem word16_be16 (word : BitVec 16) (rest : Bytes) : word16 (be16 word ++ rest) = word := by
  simp only [word16,be16,List.cons_append,List.getD_cons_zero,List.getD_cons_succ]
  rw [BitVec.extractLsb'_append_extractLsb'_eq_extractLsb' (show 8 = 0 + 8 from rfl)]
  exact BitVec.extractLsb'_eq_self

theorem be16_word16 (bytes : Bytes) : be16 (word16 bytes) = [bytes.getD 0 0,bytes.getD 1 0] := by
  rw [be16,word16,BitVec.extractLsb'_append_eq_left,BitVec.extractLsb'_append_eq_right]

theorem word16_upper (bytes : Bytes) : word16 bytes = (word32 bytes).extractLsb' 16 16 := by
  rw [word32,BitVec.extractLsb'_append_eq_of_le (by decide),BitVec.extractLsb'_append_eq_left]
  rfl

theorem word16_low {bytes other : Bytes} (same : word16 bytes = word16 other) : bytes.getD 1 0 = other.getD 1 0 := by
  have stored := congrArg be16 same
  rw [be16_word16,be16_word16] at stored
  exact (List.cons.inj (List.cons.inj stored).2).1

end NetworkEx.WireWords
