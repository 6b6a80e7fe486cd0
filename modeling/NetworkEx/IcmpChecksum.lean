import NetworkEx.ByteStreams
import NetworkEx.OnesComplement

namespace NetworkEx.IcmpChecksum
open ByteStreams OnesComplement

inductive Host where
  | little
  | big
  deriving DecidableEq

-- The u_short that two bytes of memory hold, and the bytes it is stored as.
def word : Host → UInt8 → UInt8 → Nat
  | .little,a,b => a.toNat + 256 * b.toNat
  | .big,a,b => 256 * a.toNat + b.toNat

def stored : Host → Nat → Bytes
  | .little,w => [UInt8.ofNat w,UInt8.ofNat (w / 256)]
  | .big,w => [UInt8.ofNat (w / 256),UInt8.ofNat w]

-- A value of a 64-bit long, none past its end.
def long64 (n : Nat) : Option Nat := if n < 2^63 then some n else none

-- `while( n > 1 )`, with none where it reads past the buffer.
def addWords (host : Host) : Bytes → Nat → Nat → Option (Nat × Bytes × Nat)
  | a :: b :: p,n+2,sum => (long64 (sum + word host a b)).bind fun sum => addWords host p n sum
  | _,_+2,_ => none
  | p,n,sum => some (sum,p,n)

-- The last byte goes to the first byte in memory of a cleared word.
def addOdd (host : Host) (sum : Nat) (p : Bytes) (n : Nat) : Option Nat :=
  if n = 1 then
    match p with
    | [] => none
    | b :: _ => long64 (sum + word host b 0)
  else some sum

-- The two folds and `answer = ~sum`, whose upper bits the u_short drops.
def answer (sum : Nat) : Nat :=
  let sum := (sum >>> 16) + (sum &&& 0xffff)
  let sum := sum + (sum >>> 16)
  0xffff - sum % 0x10000

def inCksum (host : Host) (p : Bytes) (n : Nat) : Option Nat :=
  ((addWords host p n 0).bind fun left => addOdd host left.1 left.2.1 left.2.2).map answer

def words (host : Host) : Bytes → List Nat
  | [] => []
  | [b] => [word host b 0]
  | a :: b :: rest => word host a b :: words host rest

theorem word_le (host : Host) (a b : UInt8) : word host a b ≤ 65535 := by
  have first := a.toNat_lt
  have second := b.toNat_lt
  cases host <;> simp only [word] <;> omega

theorem words_le (host : Host) (p : Bytes) : ∀ w ∈ words host p, w ≤ 65535 := by
  induction p using words.induct with
  | case1 => simp [words]
  | case2 b => simpa [words] using word_le host b 0
  | case3 a b rest ih => simpa [words] using ⟨word_le host a b,ih⟩

theorem words_length (host : Host) (p : Bytes) : (words host p).length = (p.length + 1) / 2 := by
  induction p using words.induct with
  | case1 => simp [words]
  | case2 b => simp [words]
  | case3 a b rest ih =>
    rw [words,List.length_cons,ih,List.length_cons,List.length_cons]
    omega

-- 65537 words of all ones are what two folds can still take.
theorem total_small (small : p.length ≤ 131074) : total (words host p) < 2^32 := by
  have bound := total_le (words_le host p)
  rw [words_length] at bound
  have half : (p.length + 1) / 2 ≤ 65537 := by omega
  have product : (p.length + 1) / 2 * 65535 ≤ 65537 * 65535 := Nat.mul_le_mul_right _ half
  omega

theorem long64_small (low : n < 2^63) : long64 n = some n := if_pos low

theorem addOdd_exact (last : n ≤ 1) (inside : n ≤ p.length) (low : sum + total (words host (p.take n)) < 2^63) :
    addOdd host sum p n = some (sum + total (words host (p.take n))) := by
  rcases Nat.le_one_iff_eq_zero_or_eq_one.mp last with rfl | rfl
  · simp [addOdd,words]
  · cases p with
    | nil => simp at inside
    | cons b p =>
      simp only [List.take_succ_cons,List.take_zero,words,total_cons,total_nil,Nat.add_zero] at low ⊢
      simp only [addOdd,if_true,long64_small low]

theorem added_exact (inside : n ≤ p.length) (low : sum + total (words host (p.take n)) < 2^63) :
    ((addWords host p n sum).bind fun left => addOdd host left.1 left.2.1 left.2.2) =
      some (sum + total (words host (p.take n))) := by
  induction p,n,sum using addWords.induct with
  | case1 a b p n sum ih =>
    rw [List.take_succ_cons,List.take_succ_cons,words,total_cons] at low ⊢
    rw [addWords,long64_small (by omega),Option.bind_some,ih _ (by simpa using inside) (by omega),Nat.add_assoc]
  | case2 p n sum short =>
    cases p with
    | nil => simp at inside
    | cons a p =>
      cases p with
      | nil => simp at inside
      | cons b p => exact (short a b p rfl).elim
  | case3 p n sum both short =>
    have last : n ≤ 1 := by
      by_contra more
      exact short (n-2) (by omega)
    rw [addWords.eq_3 host p n sum short both,Option.bind_some]
    exact addOdd_exact last inside low

theorem answer_exact (low : sum < 2^32) : answer sum = 65535 - canonical 65535 sum := by
  have folds : fold 65535 sum = sum / 65536 + sum % 65536 := rfl
  have twice : (fold 65535 sum + fold 65535 sum / 65536) % 65536 = canonical 65535 sum := twice_folded (by omega)
  have low16 : sum &&& 0xffff = sum % 65536 := Nat.and_two_pow_sub_one_eq_mod sum 16
  simp only [answer,Nat.shiftRight_eq_div_pow,low16]
  rw [← twice,folds]

theorem inCksum_exact (inside : n ≤ p.length) (small : n ≤ 131074) :
    inCksum host p n = some (65535 - canonical 65535 (total (words host (p.take n)))) := by
  have low : total (words host (p.take n)) < 2^32 := total_small (Nat.le_trans (List.length_take_le n p) small)
  rw [inCksum,added_exact inside (by omega),Option.map_some,Nat.zero_add,answer_exact low]

theorem inCksum_internet (inside : n ≤ p.length) (small : n ≤ 131074) :
    total (words host (p.take n)) < 2^32 ∧
      inCksum host p n = some (65535 - carried 65535 (words host (p.take n))) := by
  refine ⟨total_small (Nat.le_trans (List.length_take_le n p) small),?_⟩
  rw [inCksum_exact inside small,carried_eq (by decide) (words_le host _)]

theorem inCksum_internet_odd : total (words .big [69,0,255]) < 2^32 ∧
    inCksum .big [69,0,255] 3 = some (65535 - carried 65535 [0x4500,0xff00]) :=
  inCksum_internet (p := [69,0,255]) (n := 3) (by decide) (by decide)

def swapped (w : Nat) : Nat := w % 256 * 256 + w / 256

theorem byte_congr (same : a % 256 = b % 256) : UInt8.ofNat a = UInt8.ofNat b := by
  apply UInt8.toNat_inj.mp
  rw [UInt8.toNat_ofNat',UInt8.toNat_ofNat']
  exact same

theorem stored_length (host : Host) (w : Nat) : (stored host w).length = 2 := by cases host <;> rfl

theorem stored_swapped (low : w ≤ 65535) : stored .little (swapped w) = stored .big w := by
  have first : UInt8.ofNat (swapped w) = UInt8.ofNat (w / 256) := by
    apply byte_congr
    unfold swapped
    omega
  have second : UInt8.ofNat (swapped w / 256) = UInt8.ofNat w := by
    apply byte_congr
    rw [swapped,Nat.mul_comm,Nat.mul_add_div (by decide),Nat.div_eq_of_lt (by omega),Nat.add_zero,Nat.mod_mod]
  rw [stored,stored,first,second]

-- Reading in the other order multiplies each word by 256, up to all ones.
theorem total_orders (p : Bytes) : total (words .little p) % 65535 = 256 * total (words .big p) % 65535 ∧
    (total (words .little p) = 0 ↔ total (words .big p) = 0) := by
  induction p using words.induct with
  | case1 => simp [words]
  | case2 b => simp [words,word]; omega
  | case3 a b rest ih =>
    simp only [words,total_cons,word]
    omega

theorem canonical_orders (p : Bytes) :
    canonical 65535 (total (words .little p)) = swapped (canonical 65535 (total (words .big p))) := by
  obtain ⟨multiple,zero⟩ := total_orders p
  have bound := canonical_le (by decide : 0 < 65535) (total (words .big p))
  have none := canonical_zero_iff 65535 (total (words .big p))
  have same := canonical_mod 65535 (total (words .big p))
  refine (canonical_unique ?_ ?_ ?_).symm <;> unfold swapped <;> omega

theorem inCksum_host_order (inside : n ≤ p.length) (small : n ≤ 131074) :
    ∃ bytes, (inCksum .little p n).map (stored .little) = some bytes ∧ (inCksum .big p n).map (stored .big) = some bytes := by
  have bound := canonical_le (by decide : 0 < 65535) (total (words .big (p.take n)))
  refine ⟨_,?_,by rw [inCksum_exact inside small,Option.map_some]⟩
  rw [inCksum_exact inside small,Option.map_some,canonical_orders,← stored_swapped (Nat.sub_le _ _)]
  congr 2
  unfold swapped
  omega

theorem inCksum_host_order_odd :
    ∃ bytes, (inCksum .little [69,0,255] 3).map (stored .little) = some bytes ∧
      (inCksum .big [69,0,255] 3).map (stored .big) = some bytes :=
  inCksum_host_order (p := [69,0,255]) (n := 3) (by decide) (by decide)

theorem words_append (even : first.length % 2 = 0) : words host (first ++ second) = words host first ++ words host second := by
  induction first using words.induct with
  | case1 => rfl
  | case2 b => simp at even
  | case3 a b rest ih =>
    have shorter : rest.length % 2 = 0 := by
      rw [List.length_cons,List.length_cons] at even
      omega
    rw [List.cons_append,List.cons_append,words,words,ih shorter,List.cons_append]

theorem total_zeros (zeros : ∀ b ∈ p, b = 0) : total (words host p) = 0 := by
  have zero : word host 0 0 = 0 := by cases host <;> rfl
  induction p using words.induct with
  | case1 => rfl
  | case2 b =>
    rw [zeros b List.mem_cons_self,words,total_cons,zero,total_nil]
  | case3 a b rest ih =>
    rw [zeros a List.mem_cons_self,zeros b (List.mem_cons_of_mem _ List.mem_cons_self),words,total_cons,zero,Nat.zero_add]
    exact ih fun other member => zeros other (List.mem_cons_of_mem _ (List.mem_cons_of_mem _ member))

theorem total_padded {p : Bytes} (even : short % 2 = 0) (inside : short ≤ long) (whole : long ≤ p.length)
    (padded : ∀ b ∈ (p.take long).drop short, b = 0) :
    total (words host (p.take long)) = total (words host (p.take short)) := by
  have split : p.take long = p.take short ++ (p.take long).drop short := by
    have parts := List.take_append_drop short (p.take long)
    rw [List.take_take,Nat.min_eq_left inside] at parts
    exact parts.symm
  have length : (p.take short).length = short := by rw [List.length_take]; omega
  rw [split,words_append (by rw [length]; exact even),total_append,total_zeros padded,Nat.add_zero]

theorem word_stored (low : w ≤ 65535) : ∃ a b, stored host w = [a,b] ∧ word host a b = w := by
  cases host <;> refine ⟨_,_,rfl,?_⟩ <;> simp only [word,UInt8.toNat_ofNat'] <;> omega

-- p->icmp_cksum is the word from the third byte on.
def putCksum (host : Host) (p : Bytes) (sum : Nat) : Bytes := overwrite p 2 (stored host sum)

theorem total_put (low : sum ≤ 65535) (wide : 4 ≤ n) (whole : n ≤ p.length) (field : (p.drop 2).take 2 = [0,0]) :
    total (words host ((putCksum host p sum).take n)) = total (words host (p.take n)) + sum := by
  obtain ⟨x,y,bytes,back⟩ := @word_stored sum host low
  obtain ⟨n,rfl⟩ : ∃ k, n = k + 4 := ⟨n-4,by omega⟩
  match p,whole,field with
  | a :: b :: c :: d :: rest,_,field =>
    simp only [List.drop_succ_cons,List.drop_zero,List.take_succ_cons,List.take_zero,List.cons.injEq,and_true] at field
    obtain ⟨rfl,rfl⟩ := field
    have zero : word host 0 0 = 0 := by cases host <;> rfl
    simp only [putCksum,overwrite,bytes,List.take_succ_cons,List.take_zero,List.cons_append,List.nil_append,
      List.length_cons,List.length_nil,List.drop_succ_cons,List.drop_zero,words,total_cons,back,zero]
    omega

theorem canonical_host (full : canonical 65535 (total (words sender p)) = 65535) (receiver : Host) :
    canonical 65535 (total (words receiver p)) = 65535 := by
  have orders := canonical_orders p
  have bound := canonical_le (by decide : 0 < 65535) (total (words .big p))
  unfold swapped at orders
  cases sender <;> cases receiver <;> omega

-- What is stored over the longer, padded buffer makes the shorter datagram sum
-- up to all ones, for a receiver of either byte order.
theorem put_verifies (wide : 4 ≤ short) (inside : short ≤ long) (small : long ≤ 131072) (even : short % 2 = 0)
    (whole : long ≤ p.length) (padded : ∀ b ∈ (p.take long).drop short, b = 0) (field : (p.drop 2).take 2 = [0,0])
    (sender receiver : Host) :
    ∃ sum, inCksum sender p long = some sum ∧ inCksum receiver ((putCksum sender p sum).take short) short = some 0 := by
  refine ⟨_,inCksum_exact whole (by omega),?_⟩
  rw [total_padded even inside whole padded]
  have length : ∀ w, (putCksum sender p w).length = p.length := by
    intro w
    rw [putCksum,overwrite_length (by omega),stored_length]
    omega
  have full : canonical 65535 (total (words sender ((putCksum sender p
      (65535 - canonical 65535 (total (words sender (p.take short))))).take short))) = 65535 := by
    rw [total_put (Nat.sub_le _ _) wide (by omega) field]
    exact canonical_complement (by decide) _
  have whole : short ≤ ((putCksum sender p (65535 - canonical 65535 (total (words sender (p.take short))))).take short).length := by
    rw [List.length_take,length]
    omega
  rw [inCksum_exact whole (by omega),List.take_take,Nat.min_self,canonical_host full receiver]

end NetworkEx.IcmpChecksum
