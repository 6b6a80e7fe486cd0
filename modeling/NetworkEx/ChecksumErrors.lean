import NetworkEx.IcmpChecksum

namespace NetworkEx.ChecksumErrors
open ByteStreams OnesComplement IcmpChecksum

theorem word_zero_iff (host : Host) (a b : UInt8) : word host a b = 0 ↔ a = 0 ∧ b = 0 := by
  rw [← UInt8.toNat_inj,← UInt8.toNat_inj]
  cases host <;> simp only [word,UInt8.toNat_zero] <;> omega

theorem word_ones_iff (host : Host) (a b : UInt8) : word host a b = 65535 ↔ a = 255 ∧ b = 255 := by
  have first := a.toNat_lt
  have second := b.toNat_lt
  have ones : (255 : UInt8).toNat = 255 := rfl
  rw [← UInt8.toNat_inj,← UInt8.toNat_inj,ones]
  cases host <;> simp only [word] <;> omega

theorem word_inj (host : Host) : word host a b = word host c d ↔ a = c ∧ b = d := by
  have bounds : a.toNat < 256 ∧ b.toNat < 256 ∧ c.toNat < 256 ∧ d.toNat < 256 :=
    ⟨a.toNat_lt,b.toNat_lt,c.toNat_lt,d.toNat_lt⟩
  rw [← UInt8.toNat_inj,← UInt8.toNat_inj]
  cases host <;> simp only [word] <;> omega

theorem total_zero_iff (host : Host) (p : Bytes) : total (words host p) = 0 ↔ ∀ b ∈ p, b = 0 := by
  induction p using words.induct with
  | case1 => simp [words]
  | case2 b => simp [words,word_zero_iff]
  | case3 a b rest ih => simp [words,word_zero_iff,ih,and_assoc]

theorem total_word (even : front.length % 2 = 0) (inside : front.length + 2 ≤ n) (host : Host) (a b : UInt8) (back : Bytes) :
    total (words host ((front ++ a :: b :: back).take n)) =
      total (words host (front ++ back.take (n - front.length - 2))) + word host a b := by
  obtain ⟨k,rfl⟩ : ∃ k, n = front.length + (k + 2) := ⟨n - front.length - 2,by omega⟩
  have rest : front.length + (k + 2) - front.length - 2 = k := by omega
  rw [List.take_length_add_append,List.take_succ_cons,List.take_succ_cons,rest,words_append even,words_append even,
    total_append,total_append,words,total_cons]
  omega

-- A datagram with one of its words changed has the same checksum only where all
-- zeros have become all ones or the other way, and something else is not zero.
theorem inCksum_detects (host : Host) (even : front.length % 2 = 0) (inside : front.length + 2 ≤ n)
    (whole : n ≤ front.length + 2 + back.length) (small : n ≤ 131074) :
    inCksum host (front ++ a :: b :: back) n = inCksum host (front ++ c :: d :: back) n ↔
      (a = c ∧ b = d) ∨ ((∃ x ∈ front ++ back.take (n - front.length - 2), x ≠ 0) ∧
        ((a = 0 ∧ b = 0 ∧ c = 255 ∧ d = 255) ∨ (a = 255 ∧ b = 255 ∧ c = 0 ∧ d = 0))) := by
  have room : ∀ x y : UInt8, n ≤ (front ++ x :: y :: back).length := by
    intro x y
    rw [List.length_append,List.length_cons,List.length_cons]
    omega
  have others := total_zero_iff host (front ++ back.take (n - front.length - 2))
  have some_ : total (words host (front ++ back.take (n - front.length - 2))) ≠ 0 ↔
      ∃ x ∈ front ++ back.take (n - front.length - 2), x ≠ 0 := by
    rw [Ne,others]
    simp only [not_forall,exists_prop,ne_eq]
  have low := fun s => canonical_le (by decide : 0 < 65535) s
  rw [inCksum_exact (room a b) small,inCksum_exact (room c d) small,total_word even inside,total_word even inside,
    Option.some_inj,← some_,← word_inj host]
  have ends := words_apart (s := total (words host (front ++ back.take (n - front.length - 2))))
    (by decide : 0 < 65535) (word_le host a b) (word_le host c d)
  rw [word_zero_iff,word_ones_iff,word_zero_iff,word_ones_iff] at ends
  simp only [and_assoc] at ends ⊢
  rw [← ends]
  constructor
  · intro same
    have first := low (total (words host (front ++ back.take (n - front.length - 2))) + word host a b)
    have second := low (total (words host (front ++ back.take (n - front.length - 2))) + word host c d)
    omega
  · intro same
    rw [same]

theorem inCksum_detects_zeros :
    inCksum .little ([8,0] ++ 0 :: 0 :: [1]) 5 = inCksum .little ([8,0] ++ 255 :: 255 :: [1]) 5 ∧
    inCksum .big ([8,0] ++ 0 :: 0 :: [1]) 5 ≠ inCksum .big ([8,0] ++ 0 :: 1 :: [1]) 5 := by
  constructor
  · exact (inCksum_detects .little (by decide) (by decide) (by decide) (by decide)).mpr (by decide)
  · intro same
    have detected := (inCksum_detects .big (by decide) (by decide) (by decide) (by decide)).mp same
    exact absurd detected (by decide)

end NetworkEx.ChecksumErrors
