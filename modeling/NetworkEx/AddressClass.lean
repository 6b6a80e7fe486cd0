import NetworkEx.CText
import NetworkEx.WireWords

namespace NetworkEx.AddressClass
open ByteStreams CText WireWords

def INADDR_ANY : BitVec 32 := 0
def INADDR_NONE : BitVec 32 := 0xffffffff

def CLASS_MASK (order : ByteOrder) : BitVec 32 := htonl order (15 <<< 4)

def className : List Bytes :=
  [ascii "E class",ascii "D class",ascii "C class",ascii "B class",ascii "A class",[]]

inductive Output where
  | inaddrAny
  | inaddrNone
  | named (name : Bytes)
  deriving DecidableEq

def classLoop (mask haddr : BitVec 32) : Nat → Nat → Nat
  | 0,i => i
  | left+1,i => if (mask <<< i) &&& haddr = mask <<< i then i else classLoop mask haddr left (i+1)

def classIndex (order : ByteOrder) (laddr : BitVec 32) : Nat := classLoop (CLASS_MASK order) (ntohl order laddr) 5 0

def main (order : ByteOrder) (laddr : BitVec 32) : Output :=
  if laddr = INADDR_ANY then .inaddrAny
  else if laddr = INADDR_NONE then .inaddrNone
  else .named (className.getD (classIndex order laddr) [])

-- The address as a number, its first byte the most significant one; inet_addr
-- gives its bytes in network order.
def inetAddr (order : ByteOrder) (address : BitVec 32) : BitVec 32 := htonl order address

inductive Class where
  | A
  | B
  | C
  | D
  | E
  deriving DecidableEq

def classOf (address : BitVec 32) : Class :=
  if address.getLsbD 31 = false then .A
  else if address.getLsbD 30 = false then .B
  else if address.getLsbD 29 = false then .C
  else if address.getLsbD 28 = false then .D
  else .E

def Class.index : Class → Nat
  | .E => 0
  | .D => 1
  | .C => 2
  | .B => 3
  | .A => 4

def Class.name : Class → Bytes
  | .A => ascii "A class"
  | .B => ascii "B class"
  | .C => ascii "C class"
  | .D => ascii "D class"
  | .E => ascii "E class"

structure Classified (order : ByteOrder) (address : BitVec 32) : Prop where
  index : classIndex order (inetAddr order address) = (classOf address).index
  inside : classIndex order (inetAddr order address) < 5
  named : main order (inetAddr order address) = .named (classOf address).name

-- Four bits from `base + i` on are ones, as far as a word has them, and the bit
-- below them is not: with it the loop would have stopped earlier.
structure Window (base : Nat) (address : BitVec 32) (i : Nat) : Prop where
  ones : ∀ k, k < 32 → base + i ≤ k → k < base + i + 4 → address.getLsbD k = true
  below : i = 0 ∨ address.getLsbD (base + i - 1) = false

theorem and_eq_mask_iff {mask word : BitVec w} : mask &&& word = mask ↔ ∀ k, mask.getLsbD k = true → word.getLsbD k = true := by
  constructor
  · intro same k one
    have bit := congrArg (·.getLsbD k) same
    simpa [one] using bit
  · intro ones
    apply BitVec.eq_of_getLsbD_eq
    intro k _
    rw [BitVec.getLsbD_and]
    cases one : mask.getLsbD k with
    | false => rfl
    | true => exact ones k one

theorem fifteen_bit (k : Nat) : (15 : BitVec 32).getLsbD k = decide (k < 4) := by
  by_cases small : k < 4
  · have all : ∀ k, k < 4 → (15 : BitVec 32).getLsbD k = true := by decide
    rw [decide_eq_true small]
    exact all k small
  · rw [decide_eq_false small]
    by_cases inside : k < 32
    · have all : ∀ k, k < 32 → ¬ k < 4 → (15 : BitVec 32).getLsbD k = false := by decide
      exact all k inside small
    · exact BitVec.getLsbD_of_ge _ _ (Nat.le_of_not_lt inside)

theorem test_iff (base i : Nat) (haddr : BitVec 32) :
    (((15 : BitVec 32) <<< base) <<< i) &&& haddr = ((15 : BitVec 32) <<< base) <<< i ↔
      ∀ k, k < 32 → base + i ≤ k → k < base + i + 4 → haddr.getLsbD k = true := by
  rw [← BitVec.shiftLeft_add,and_eq_mask_iff]
  apply forall_congr'
  intro k
  rw [BitVec.getLsbD_shiftLeft,fifteen_bit]
  simp only [Bool.and_eq_true,decide_eq_true_eq,Bool.not_eq_true',decide_eq_false_iff_not]
  constructor
  · intro ones inside from_ short
    exact ones ⟨⟨inside,by omega⟩,by omega⟩
  · intro ones mask
    exact ones mask.1.1 (by omega) (by omega)

theorem classLoop_from (mask haddr : BitVec 32) (left i : Nat) : i ≤ classLoop mask haddr left i := by
  induction left generalizing i with
  | zero => exact Nat.le_refl i
  | succ left ih =>
    rw [classLoop]
    split
    · exact Nat.le_refl i
    · exact Nat.le_of_succ_le (ih (i+1))

theorem classLoop_first (mask haddr : BitVec 32) (left i j : Nat) (inside : i ≤ j ∧ j < i + left) :
    classLoop mask haddr left i = j ↔ (mask <<< j) &&& haddr = mask <<< j ∧
      ∀ k, i ≤ k → k < j → ¬ (mask <<< k) &&& haddr = mask <<< k := by
  induction left generalizing i with
  | zero => omega
  | succ left ih =>
    rw [classLoop]
    by_cases here : (mask <<< i) &&& haddr = mask <<< i
    · rw [if_pos here]
      constructor
      · rintro rfl
        exact ⟨here,fun k from_ before => absurd from_ (Nat.not_le.mpr before)⟩
      · intro first
        by_contra different
        exact first.2 i (Nat.le_refl i) (by omega) here
    · rw [if_neg here]
      by_cases last : i = j
      · subst last
        have later := classLoop_from mask haddr left (i+1)
        exact iff_of_false (by omega) fun first => here first.1
      · rw [ih (i+1) (by omega)]
        apply and_congr_right
        intro _
        constructor
        · intro later k from_ before
          by_cases first : k = i
          · rw [first]
            exact here
          · exact later k (by omega) before
        · intro all k from_ before
          exact all k (by omega) before

theorem classLoop_window (room : base + 3 < 32) (small : i < 5) :
    classLoop ((15 : BitVec 32) <<< base) haddr 5 0 = i ↔ Window base haddr i := by
  rw [classLoop_first _ _ 5 0 i (by omega),test_iff]
  constructor
  · intro first
    obtain ⟨ones,none⟩ := first
    refine ⟨ones,?_⟩
    by_contra both
    obtain ⟨some,one⟩ := not_or.mp both
    apply none (i - 1) (Nat.zero_le _) (by omega)
    rw [test_iff]
    intro k inside from_ short
    by_cases lowest : k = base + i - 1
    · rw [lowest]
      exact Bool.not_eq_false _ ▸ one
    · exact ones k inside (by omega) (by omega)
  · intro window
    refine ⟨window.ones,?_⟩
    intro k _ before earlier
    rw [test_iff] at earlier
    have one := earlier (base + i - 1) (by omega) (by omega) (by omega)
    rcases window.below with first | zero
    · omega
    · rw [one] at zero
      cases zero

theorem classOf_window (address : BitVec 32) : Window 28 address (classOf address).index := by
  have top : ∀ k, k < 32 → 28 ≤ k → k = 28 ∨ k = 29 ∨ k = 30 ∨ k = 31 := by omega
  unfold classOf
  split_ifs with first second third fourth
  all_goals
    constructor
    · intro k inside from_ _
      rcases top k inside (by omega) with rfl | rfl | rfl | rfl <;> simp_all [Class.index]
    · simp_all [Class.index]

theorem class_small (class_ : Class) : class_.index < 5 := by cases class_ <;> decide

theorem class_named (class_ : Class) : className.getD class_.index [] = class_.name := by cases class_ <;> rfl

-- 15 << 4 is in the last byte of a word, which is the first in memory of a
-- little-endian host and htonl's last on a big-endian one.
theorem mask_place : CLASS_MASK .little = 15 <<< 28 ∧ CLASS_MASK .big = 15 <<< 4 := by decide

def base : ByteOrder → Nat
  | .little => 28
  | .big => 4

theorem classIndex_window (order : ByteOrder) (address : BitVec 32) (small : i < 5) :
    classIndex order (inetAddr order address) = i ↔ Window (base order) address i := by
  rw [classIndex,inetAddr,ntohl_htonl]
  cases order with
  | little =>
    rw [mask_place.1]
    exact classLoop_window (by decide) small
  | big =>
    rw [mask_place.2]
    exact classLoop_window (by decide) small

theorem inetAddr_constant {constant : BitVec 32} (fixed : ∀ order, ntohl order constant = constant) (other : address ≠ constant)
    (order : ByteOrder) : inetAddr order address ≠ constant := by
  intro same
  have back := congrArg (ntohl order) same
  rw [inetAddr,ntohl_htonl,fixed] at back
  exact other back

theorem main_named (any : address ≠ INADDR_ANY) (none : address ≠ INADDR_NONE) (order : ByteOrder) :
    main order (inetAddr order address) = .named (className.getD (classIndex order (inetAddr order address)) []) := by
  have zero : ∀ order, ntohl order INADDR_ANY = INADDR_ANY := by intro order; cases order <;> decide
  have ones : ∀ order, ntohl order INADDR_NONE = INADDR_NONE := by intro order; cases order <;> decide
  rw [main,if_neg (inetAddr_constant zero any order),if_neg (inetAddr_constant ones none order)]

theorem classified_exact (any : address ≠ INADDR_ANY) (none : address ≠ INADDR_NONE) (order : ByteOrder) :
    Classified order address ↔ order = .little ∨ Window 4 address (classOf address).index := by
  have index := classIndex_window order address (class_small (classOf address))
  have whole : Classified order address ↔ Window (base order) address (classOf address).index := by
    rw [← index]
    refine ⟨Classified.index,fun same => ⟨same,by rw [same]; exact class_small _,?_⟩⟩
    rw [main_named any none,same,class_named]
  rw [whole]
  cases order with
  | little => exact iff_of_true (classOf_window address) (.inl rfl)
  | big => exact ⟨.inr,fun told => told.resolve_left nofun⟩

theorem classified_exact_c : Classified .little 0xc0a80001 :=
  (classified_exact (by decide) (by decide) .little).mpr (.inl rfl)

theorem class_missed : classOf 0xc0a80001 = .C ∧ main .big (inetAddr .big 0xc0a80001) = .named [] ∧
    main .little (inetAddr .little 0xc0a80001) = .named (ascii "C class") ∧ ¬ Classified .big 0xc0a80001 := by
  have printed : main .big (inetAddr .big 0xc0a80001) = .named [] := by decide
  refine ⟨by decide,printed,by decide,?_⟩
  intro classified
  have named := classified.named
  rw [printed] at named
  exact absurd named (by decide)

end NetworkEx.AddressClass
