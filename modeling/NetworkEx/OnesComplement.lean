import Mathlib.Data.List.Basic
import Mathlib.Data.Nat.ModEq

namespace NetworkEx.OnesComplement

-- Words from 0 to m, where m is all ones: addition puts the carry out of the
-- top back in at the bottom, and both 0 and m stand for zero.
def fold (m s : Nat) : Nat := s / (m+1) + s % (m+1)

def addCarry (m a b : Nat) : Nat := fold m (a+b)

def carried (m : Nat) (words : List Nat) : Nat := words.foldl (addCarry m) 0

def total (words : List Nat) : Nat := words.foldr (· + ·) 0

-- The word that a sum of words comes to: 0 only if nothing was added, and
-- otherwise the remainder from 1 to m.
def canonical (m s : Nat) : Nat := if s = 0 then 0 else (s-1) % m + 1

@[simp] theorem total_nil : total [] = 0 := rfl
@[simp] theorem total_cons (w : Nat) (words : List Nat) : total (w :: words) = w + total words := rfl

theorem total_append (first second : List Nat) : total (first ++ second) = total first + total second := by
  induction first with
  | nil => simp
  | cons w first ih => rw [List.cons_append,total_cons,total_cons,ih,Nat.add_assoc]

theorem total_le (bounded : ∀ w ∈ words, w ≤ m) : total words ≤ words.length * m := by
  induction words with
  | nil => simp
  | cons w words ih =>
    have here := bounded w List.mem_cons_self
    have rest := ih fun other member => bounded other (List.mem_cons_of_mem _ member)
    rw [total_cons,List.length_cons,Nat.succ_mul]
    omega

theorem canonical_le (positive : 0 < m) (s : Nat) : canonical m s ≤ m := by
  unfold canonical
  split
  · exact Nat.zero_le m
  · exact Nat.mod_lt _ positive

theorem canonical_zero_iff (m s : Nat) : canonical m s = 0 ↔ s = 0 := by
  unfold canonical
  split <;> simp_all

theorem canonical_mod (m s : Nat) : canonical m s % m = s % m := by
  unfold canonical
  split
  · rename_i zero; rw [zero]
  · rename_i some
    rw [Nat.mod_add_mod,Nat.sub_add_cancel (Nat.pos_of_ne_zero some)]

theorem pred_mod (positive : 0 < a) (positive' : 0 < b) (same : a % m = b % m) : (a-1) % m = (b-1) % m := by
  have shifted : Nat.ModEq m (a - 1 + 1) (b - 1 + 1) := by
    rw [Nat.sub_add_cancel positive,Nat.sub_add_cancel positive']
    exact same
  exact Nat.ModEq.add_right_cancel' 1 shifted

theorem canonical_unique (bounded : r ≤ m) (zero : r = 0 ↔ s = 0) (same : r % m = s % m) : r = canonical m s := by
  unfold canonical
  split
  · rename_i nothing; exact zero.mpr nothing
  · rename_i some
    have positive : 0 < r := Nat.pos_of_ne_zero (fun nothing => some (zero.mp nothing))
    rw [← pred_mod positive (Nat.pos_of_ne_zero some) same,Nat.mod_eq_of_lt (by omega)]
    omega

theorem fold_parts (m s : Nat) : m * (s / (m+1)) + fold m s = s := by
  have parts := Nat.div_add_mod s (m+1)
  rw [Nat.succ_mul] at parts
  unfold fold
  omega

theorem fold_mod (m s : Nat) : fold m s % m = s % m := by
  have parts := fold_parts m s
  rw [← Nat.mul_add_mod m (s / (m+1)) (fold m s),parts]

theorem fold_zero_iff (m s : Nat) : fold m s = 0 ↔ s = 0 := by
  constructor
  · intro zero
    have parts := Nat.div_add_mod s (m+1)
    obtain ⟨quotient,rest⟩ := Nat.add_eq_zero_iff.mp zero
    rw [quotient,rest,Nat.mul_zero] at parts
    exact parts.symm
  · rintro rfl
    simp [fold]

theorem fold_le (low : s ≤ 2*m) : fold m s ≤ m := by
  unfold fold
  by_cases inside : s < m+1
  · rw [Nat.div_eq_of_lt inside,Nat.mod_eq_of_lt inside]
    omega
  · have once : s = (s - (m+1)) + (m+1) := by omega
    rw [once,Nat.add_div_right _ (Nat.succ_pos m),Nat.add_mod_right,Nat.div_eq_of_lt (by omega),
      Nat.mod_eq_of_lt (by omega)]
    omega

theorem fold_double_le (low : s < (m+1)*(m+1)) : fold m s ≤ 2*m := by
  have quotient : s / (m+1) < m+1 := Nat.div_lt_of_lt_mul low
  have rest : s % (m+1) < m+1 := Nat.mod_lt s (Nat.succ_pos m)
  unfold fold
  omega

theorem addCarry_canonical (positive : 0 < m) (bounded : b ≤ m) : addCarry m (canonical m s) b = canonical m (s+b) := by
  have low := canonical_le positive s
  refine canonical_unique (fold_le (by omega)) ?_ ?_
  · rw [addCarry,fold_zero_iff,Nat.add_eq_zero_iff,canonical_zero_iff,Nat.add_eq_zero_iff]
  · rw [addCarry,fold_mod,Nat.add_mod,canonical_mod,← Nat.add_mod]

theorem carried_eq (positive : 0 < m) (bounded : ∀ w ∈ words, w ≤ m) : carried m words = canonical m (total words) := by
  have onward : ∀ s, words.foldl (addCarry m) (canonical m s) = canonical m (s + total words) := by
    induction words with
    | nil => intro s; rfl
    | cons w words ih =>
      intro s
      rw [List.foldl_cons,addCarry_canonical positive (bounded w List.mem_cons_self),
        ih (fun other member => bounded other (List.mem_cons_of_mem _ member)),total_cons,Nat.add_assoc]
  have zero : canonical m 0 = 0 := rfl
  have start := onward 0
  rw [zero,Nat.zero_add] at start
  exact start

-- Two folds after all additions, the second cut to one word, lose no carry.
theorem twice_folded (low : s < (m+1)*(m+1)) :
    (fold m s + fold m s / (m+1)) % (m+1) = canonical m s := by
  have bound := fold_double_le low
  have again : fold m (fold m s) = (fold m s + fold m s / (m+1)) % (m+1) := by
    generalize fold m s = t at bound
    unfold fold
    by_cases inside : t < m+1
    · rw [Nat.div_eq_of_lt inside,Nat.zero_add,Nat.add_zero t]
    · have once : t = (t - (m+1)) + (m+1) := by omega
      have carry : t / (m+1) = 1 := by
        rw [once,Nat.add_div_right _ (Nat.succ_pos m),Nat.div_eq_of_lt (by omega)]
      have rest : t % (m+1) = t - (m+1) := by
        rw [Nat.mod_eq_sub_mod (by omega),Nat.mod_eq_of_lt (by omega)]
      have whole : (t + 1) % (m+1) = t + 1 - (m+1) := by
        rw [Nat.mod_eq_sub_mod (by omega),Nat.mod_eq_of_lt (by omega)]
      rw [carry,rest,whole]
      omega
  rw [← again]
  refine canonical_unique (fold_le bound) ?_ ?_
  · rw [fold_zero_iff,fold_zero_iff]
  · rw [fold_mod,fold_mod]

theorem canonical_complement (positive : 0 < m) (s : Nat) : canonical m (s + (m - canonical m s)) = m := by
  have low := canonical_le positive s
  have zero := canonical_zero_iff m s
  refine (canonical_unique (Nat.le_refl m) ?_ ?_).symm
  · constructor
    · intro nothing; omega
    · intro nothing; omega
  · have turned : (canonical m s + (m - canonical m s)) % m = (s + (m - canonical m s)) % m := by
      rw [Nat.add_mod,canonical_mod,← Nat.add_mod]
    rw [← turned,Nat.add_sub_cancel' low]

theorem canonical_eq_iff (positive : 0 < m) : canonical m s = canonical m t ↔ s % m = t % m ∧ (s = 0 ↔ t = 0) := by
  constructor
  · intro same
    refine ⟨?_,?_⟩
    · rw [← canonical_mod m s,same,canonical_mod]
    · rw [← canonical_zero_iff m s,same,canonical_zero_iff]
  · rintro ⟨rest,zero⟩
    refine canonical_unique (canonical_le positive s) ?_ ?_
    · rw [canonical_zero_iff,zero]
    · rw [canonical_mod,rest]

-- Two words are told apart beside the same others unless they are the two zeros,
-- and these too where all the others are 0.
theorem words_apart (positive : 0 < m) (low : a ≤ m) (low' : b ≤ m) :
    canonical m (s + a) = canonical m (s + b) ↔ a = b ∨ (s ≠ 0 ∧ ((a = 0 ∧ b = m) ∨ (a = m ∧ b = 0))) := by
  rw [canonical_eq_iff positive]
  constructor
  · rintro ⟨same,zero⟩
    have equal : a % m = b % m := Nat.ModEq.add_left_cancel' s same
    rcases Nat.lt_or_eq_of_le low with below | rfl <;> rcases Nat.lt_or_eq_of_le low' with below' | rfl
    · rw [Nat.mod_eq_of_lt below,Nat.mod_eq_of_lt below'] at equal
      exact .inl equal
    · rw [Nat.mod_eq_of_lt below,Nat.mod_self] at equal
      exact .inr ⟨by omega,.inl ⟨equal,rfl⟩⟩
    · rw [Nat.mod_eq_of_lt below',Nat.mod_self] at equal
      exact .inr ⟨by omega,.inr ⟨rfl,equal.symm⟩⟩
    · exact .inl rfl
  · rintro (rfl | ⟨some_,⟨rfl,rfl⟩ | ⟨rfl,rfl⟩⟩)
    · exact ⟨rfl,Iff.rfl⟩
    · exact ⟨by rw [Nat.add_mod_right]; rfl,by omega⟩
    · exact ⟨by rw [Nat.add_mod_right]; rfl,by omega⟩

end NetworkEx.OnesComplement
