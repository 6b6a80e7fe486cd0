import Mathlib.Algebra.BigOperators.Group.Finset.Basic
import Mathlib.Algebra.BigOperators.Group.List.Basic
import Mathlib.Algebra.Order.Group.Int
import Mathlib.Algebra.Ring.Int.Defs
import Mathlib.Algebra.Ring.Nat
import Mathlib.Data.List.Count

namespace NetworkEx.ProcessTable

variable {α : Type u} {table : List α} {i j : Nat}

theorem set_found (found : (table.set i new)[j]? = some p) : (j = i ∧ p = new) ∨ (j ≠ i ∧ table[j]? = some p) := by
  rw [List.getElem?_set] at found
  by_cases equal : i = j
  · rw [if_pos equal] at found
    split at found
    · cases found
      exact .inl ⟨equal.symm,rfl⟩
    · cases found
  · rw [if_neg equal] at found
    exact .inr ⟨Ne.symm equal,found⟩

theorem append_found (found : (table ++ [new])[j]? = some p) : table[j]? = some p ∨ (j = table.length ∧ p = new) := by
  by_cases old : j < table.length
  · rw [List.getElem?_append_left old] at found
    exact .inl found
  · rw [List.getElem?_append_right (Nat.le_of_not_lt old)] at found
    obtain ⟨inside,same⟩ := List.getElem?_eq_some_iff.mp found
    have zero : j - table.length = 0 := by simpa using inside
    refine .inr ⟨by omega,?_⟩
    simpa [zero] using same.symm

theorem all_set {good : α → Prop} (all : ∀ p ∈ table, good p) (fresh : good new) : ∀ p ∈ table.set i new, good p := by
  intro p member
  rcases List.mem_or_eq_of_mem_set member with old | same
  · exact all p old
  · rw [same]
    exact fresh

theorem all_append {good : α → Prop} (all : ∀ p ∈ table, good p) (fresh : good new) : ∀ p ∈ table ++ [new], good p :=
  List.forall_mem_append.mpr ⟨all,List.forall_mem_singleton.mpr fresh⟩

theorem total_set (held : α → Int) (found : table[i]? = some old) (new : α) :
    ((table.set i new).map held).sum + held old = (table.map held).sum + held new := by
  induction table generalizing i with
  | nil => cases found
  | cons p rest ih =>
    cases i with
    | zero =>
      cases found
      simp only [List.set_cons_zero,List.map_cons,List.sum_cons]
      omega
    | succ i =>
      have later := ih (i := i) found
      simp only [List.set_cons_succ,List.map_cons,List.sum_cons]
      omega

theorem weight_set (weight : α → Nat) (found : table[i]? = some old) (new : α) :
    ((table.set i new).map weight).sum + weight old = (table.map weight).sum + weight new := by
  have cast : ∀ list : List α, (list.map fun p => (weight p : Int)).sum = ((list.map weight).sum : Nat) := by
    intro list
    induction list with
    | nil => rfl
    | cons p rest ih => simp [ih]
  have whole := total_set (fun p => (weight p : Int)) found new
  rw [cast,cast] at whole
  omega

theorem sum_change {ι : Type v} [DecidableEq ι] (before after : ι → Nat) {all : Finset ι} {k : ι} (member : k ∈ all)
    (others : ∀ other, other ≠ k → after other = before other) :
    ∑ other ∈ all, after other + before k = ∑ other ∈ all, before other + after k := by
  have rest : ∑ other ∈ all.erase k, after other = ∑ other ∈ all.erase k, before other :=
    Finset.sum_congr rfl fun other here => others other (Finset.ne_of_mem_erase here)
  rw [← Finset.add_sum_erase all after member,← Finset.add_sum_erase all before member,rest]
  omega

theorem countP_le_total (inside : α → Bool) (held : α → Int) (nonneg : ∀ p ∈ table, 0 ≤ held p)
    (owns : ∀ p ∈ table, inside p = true → 1 ≤ held p) : (table.countP inside : Int) ≤ (table.map held).sum := by
  induction table with
  | nil => exact Int.le_refl 0
  | cons p rest ih =>
    have first := nonneg p List.mem_cons_self
    have later := ih (fun q member => nonneg q (List.mem_cons_of_mem _ member))
      (fun q member => owns q (List.mem_cons_of_mem _ member))
    rw [List.countP_cons]
    simp only [List.map_cons,List.sum_cons]
    split
    · rename_i entered
      have one := owns p List.mem_cons_self entered
      omega
    · omega

theorem countP_pos_of_found {inside : α → Bool} (found : table[i]? = some p) (entered : inside p = true) :
    0 < table.countP inside := List.countP_pos_iff.mpr ⟨p,List.mem_of_getElem? found,entered⟩

theorem alone {inside : α → Bool} (most : table.countP inside ≤ 1) (here : table[i]? = some p) (there : table[j]? = some q)
    (first : inside p = true) (second : inside q = true) : i = j := by
  induction table generalizing i j with
  | nil => cases here
  | cons r rest ih =>
    rw [List.countP_cons] at most
    cases i with
    | zero =>
      cases j with
      | zero => rfl
      | succ j =>
        cases here
        have other := countP_pos_of_found (show rest[j]? = some q from there) second
        rw [if_pos first] at most
        omega
    | succ i =>
      cases j with
      | zero =>
        cases there
        have other := countP_pos_of_found (show rest[i]? = some p from here) first
        rw [if_pos second] at most
        omega
      | succ j =>
        have fewer : rest.countP inside ≤ 1 := by omega
        exact congrArg (· + 1) (ih fewer here there)

end NetworkEx.ProcessTable
