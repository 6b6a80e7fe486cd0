import Mathlib.Algebra.Group.Int.Defs
import Mathlib.Algebra.Group.Nat.Defs
import NetworkEx.ByteStreams

namespace NetworkEx.CText
open ByteStreams

def byteOf (c : Char) : UInt8 := c.toNat.toUInt8
def charOf (b : UInt8) : Char := Char.ofNat b.toNat

-- The bytes of a literal of the source, without its terminator.
def ascii (literal : String) : Bytes := literal.toList.map byteOf

-- The C string at the front of a region. There is none where no NUL ends it
-- inside the region: a reader would go on past it.
def cstring : Bytes → Option Bytes
  | [] => none
  | b :: rest => if b = 0 then some [] else (cstring rest).map (b :: ·)

theorem cstring_terminated (clean : 0 ∉ text) : cstring (text ++ 0 :: rest) = some text := by
  induction text with
  | nil => simp [cstring]
  | cons b text ih =>
    obtain ⟨head,tail⟩ := not_or.mp (fun h => clean (List.mem_cons.mpr h))
    rw [List.cons_append,cstring,if_neg (Ne.symm head),ih tail]; rfl

theorem cstring_parts (found : cstring region = some text) :
    0 ∉ text ∧ ∃ rest, region = text ++ 0 :: rest := by
  induction region generalizing text with
  | nil => cases found
  | cons b region ih =>
    unfold cstring at found
    split at found
    · rename_i zero; cases found; exact ⟨by simp,region,by rw [zero]; rfl⟩
    · rename_i other
      obtain ⟨tail,inner,rfl⟩ := Option.map_eq_some_iff.mp found
      obtain ⟨clean,rest,rfl⟩ := ih inner
      exact ⟨by simp [clean,Ne.symm other],rest,rfl⟩

theorem cstring_isSome : (cstring region).isSome ↔ 0 ∈ region := by
  induction region with
  | nil => simp [cstring]
  | cons b region ih =>
    by_cases zero : b = 0
    · simp [cstring,zero]
    · simp [cstring,zero,ih,Ne.symm zero]

theorem cstring_append (terminated : 0 ∈ region) (rest : Bytes) : cstring (region ++ rest) = cstring region := by
  obtain ⟨text,found⟩ := Option.isSome_iff_exists.mp (cstring_isSome.mpr terminated)
  obtain ⟨clean,behind,rfl⟩ := cstring_parts found
  rw [found,List.append_assoc,List.cons_append,cstring_terminated clean]

-- What a NUL behind the bytes makes of them as a string.
def untilNul (bytes : Bytes) : Bytes := bytes.takeWhile fun b => decide (b ≠ 0)

theorem cstring_untilNul (bytes rest : Bytes) : cstring (bytes ++ 0 :: rest) = some (untilNul bytes) := by
  induction bytes with
  | nil => rfl
  | cons b bytes ih =>
    by_cases zero : b = 0
    · simp [cstring,untilNul,zero]
    · simp [cstring,untilNul,zero,ih]

theorem untilNul_clean {bytes : Bytes} (clean : 0 ∉ bytes) : untilNul bytes = bytes := by
  have string := cstring_untilNul bytes []
  rw [cstring_terminated clean] at string
  exact (Option.some.inj string).symm

theorem untilNul_nil (bytes : Bytes) : untilNul bytes = [] ↔ bytes.getD 0 0 = 0 := by
  cases bytes with
  | nil => exact iff_of_true rfl rfl
  | cons b rest => by_cases zero : b = 0 <;> simp [untilNul,zero]

-- Text in an array of cleared bytes ends at the first byte behind it, and has
-- no end where it fills the array.
theorem cstring_cleared (short : text.length < capacity) (clean : 0 ∉ text) :
    cstring (overlay text (List.replicate capacity 0)) = some text := by
  have tail : overlay text (List.replicate capacity 0) = text ++ 0 :: List.replicate (capacity - text.length - 1) 0 := by
    rw [overlay,List.drop_replicate,← List.replicate_succ]
    congr 2
    omega
  rw [tail,cstring_terminated clean]

theorem cstring_cleared_isSome (text : Bytes) (capacity : Nat) :
    (cstring (overlay text (List.replicate capacity 0))).isSome ↔ text.length < capacity ∨ 0 ∈ text := by
  rw [cstring_isSome,overlay,List.mem_append,List.drop_replicate,List.mem_replicate]
  constructor
  · intro ends
    rcases ends with inside | ⟨room,_⟩
    · exact .inr inside
    · exact .inl (by omega)
  · intro ends
    rcases ends with room | inside
    · exact .inr ⟨by omega,rfl⟩
    · exact .inl inside

-- sprintf into an array: the text and its NUL must fit.
def sprintf (capacity : Nat) (text : Bytes) : Option Bytes := if text.length < capacity then some text else none

theorem sprintf_fits (fits : text.length < capacity) : sprintf capacity text = some text := if_pos fits

theorem sprintf_parts (printed : sprintf capacity text = some result) : result = text ∧ text.length < capacity := by
  unfold sprintf at printed
  split at printed
  · rename_i fits; exact ⟨(Option.some.inj printed).symm,fits⟩
  · cases printed

def decimalNat (n : Nat) : Bytes := (Nat.toDigits 10 n).map byteOf

def decimal : Int → Bytes
  | .ofNat n => decimalNat n
  | .negSucc n => 45 :: decimalNat (n+1)

def decimal02 (n : Nat) : Bytes := if n < 10 then 48 :: decimalNat n else decimalNat n

def isDigit (b : UInt8) : Bool := decide (48 ≤ b ∧ b ≤ 57)

-- strtol's view of a whole field: digits only, with at most one leading minus.
def readNat (field : Bytes) : Option Nat :=
  if field ≠ [] ∧ field.all isDigit then some (Nat.ofDigitChars 10 (field.map charOf) 0) else none

def readInt : Bytes → Option Int
  | [] => none
  | b :: rest => if b = 45 then (readNat rest).map (fun n => -(n : Int)) else (readNat (b :: rest)).map Int.ofNat

theorem charOf_byteOf (digit : c.isDigit = true) : charOf (byteOf c) = c := by
  have low : c.toNat < 256 := by
    simp only [Char.isDigit,Bool.and_eq_true,decide_eq_true_eq,UInt32.le_iff_toNat_le] at digit
    exact Nat.lt_of_le_of_lt digit.2 (by decide)
  simp only [charOf,byteOf,Nat.toUInt8_eq,UInt8.toNat_ofNat',Nat.mod_eq_of_lt low,Char.ofNat_toNat]

theorem byteOf_isDigit (digit : c.isDigit = true) : isDigit (byteOf c) = true := by
  simp only [Char.isDigit,Bool.and_eq_true,decide_eq_true_eq,UInt32.le_iff_toNat_le] at digit
  simp only [isDigit,byteOf,decide_eq_true_eq,UInt8.le_iff_toNat_le,Nat.toUInt8_eq,UInt8.toNat_ofNat',Char.toNat]
  simp at digit ⊢
  omega

theorem decimalNat_digits (n : Nat) : ∀ b ∈ decimalNat n, isDigit b = true := by
  intro b present
  obtain ⟨c,member,rfl⟩ := List.mem_map.mp present
  exact byteOf_isDigit (Nat.isDigit_of_mem_toDigits (by decide) (by decide) member)

theorem decimalNat_ne_nil (n : Nat) : decimalNat n ≠ [] := by
  simp [decimalNat,Nat.toDigits_ne_nil]

theorem decimalNat_chars (n : Nat) : (decimalNat n).map charOf = Nat.toDigits 10 n := by
  rw [decimalNat,List.map_map]
  have same : ∀ c ∈ Nat.toDigits 10 n, (charOf ∘ byteOf) c = c := fun c member =>
    charOf_byteOf (Nat.isDigit_of_mem_toDigits (by decide) (by decide) member)
  simpa using List.map_congr_left same

theorem readNat_decimalNat (n : Nat) : readNat (decimalNat n) = some n := by
  rw [readNat,if_pos ⟨decimalNat_ne_nil n,List.all_eq_true.mpr (decimalNat_digits n)⟩,decimalNat_chars]
  simp

theorem readNat_decimal02 (n : Nat) : readNat (decimal02 n) = some n := by
  unfold decimal02
  split
  · have digits : (48 :: decimalNat n).all isDigit = true := by
      simpa [isDigit] using decimalNat_digits n
    rw [readNat,if_pos ⟨by simp,digits⟩,List.map_cons,decimalNat_chars]
    have zero : charOf 48 = '0' := by decide
    rw [zero,Nat.ofDigitChars_cons]
    simp
  · exact readNat_decimalNat n

theorem readInt_decimal (n : Int) : readInt (decimal n) = some n := by
  cases n with
  | negSucc n => simp [decimal,readInt,readNat_decimalNat]; omega
  | ofNat n =>
    cases shape : decimalNat n with
    | nil => exact absurd shape (decimalNat_ne_nil n)
    | cons b rest =>
      have digit := decimalNat_digits n b (by simp [shape])
      have notMinus : b ≠ 45 := by intro equal; subst equal; simp [isDigit] at digit
      rw [decimal,shape,readInt,if_neg notMinus,← shape,readNat_decimalNat]
      rfl

theorem decimal_bytes (n : Int) : ∀ b ∈ decimal n, b = 45 ∨ isDigit b = true := by
  intro b present
  cases n with
  | ofNat n => exact .inr (decimalNat_digits n b present)
  | negSucc n =>
    rcases List.mem_cons.mp present with rfl | later
    · exact .inl rfl
    · exact .inr (decimalNat_digits _ b later)

theorem decimal02_bytes (n : Nat) : ∀ b ∈ decimal02 n, isDigit b = true := by
  intro b present
  unfold decimal02 at present
  split at present
  · rcases List.mem_cons.mp present with rfl | later
    · decide
    · exact decimalNat_digits n b later
  · exact decimalNat_digits n b present

theorem decimal02_free (other : isDigit b = false) (n : Nat) : b ∉ decimal02 n := by
  intro member
  rw [decimal02_bytes n b member] at other
  cases other

theorem decimalNat_free (other : isDigit b = false) (n : Nat) : b ∉ decimalNat n := by
  intro member
  rw [decimalNat_digits n b member] at other
  cases other

theorem decimal_free (other : isDigit b = false) (minus : b ≠ 45) (n : Int) : b ∉ decimal n := by
  intro member
  rcases decimal_bytes n b member with same | digit
  · exact minus same
  · rw [digit] at other; cases other

theorem decimal_clean (n : Int) : 0 ∉ decimal n := decimal_free (by decide) (by decide) n

theorem decimalNat_length (positive : 0 < k) (small : n < 10 ^ k) : (decimalNat n).length ≤ k := by
  rw [decimalNat,List.length_map]
  exact (Nat.length_toDigits_le_iff (by decide) positive).mpr small

theorem decimal_length (positive : 0 < k) (small : n.natAbs < 10 ^ k) : (decimal n).length ≤ k+1 := by
  cases n with
  | ofNat n => exact Nat.le_succ_of_le (decimalNat_length positive small)
  | negSucc n => exact Nat.succ_le_succ (decimalNat_length positive small)

theorem decimal02_length (small : n < 100) : (decimal02 n).length = 2 := by
  have all : ∀ n, n < 100 → (decimal02 n).length = 2 := by decide
  exact all n small

end NetworkEx.CText
