import Mathlib.Data.List.Basic

namespace NetworkEx.StreamLines

variable {α : Type u} {ends : α → Prop}

-- One element that ends a line, behind any number of others that do not.
def Line (ends : α → Prop) (line : List α) : Prop :=
  ∃ text last, line = text ++ [last] ∧ ends last ∧ ∀ a ∈ text, ¬ ends a

theorem Line.append (quiet : ∀ a ∈ front, ¬ ends a) (line : Line ends l) : Line ends (front ++ l) := by
  obtain ⟨text,last,rfl,ended,silent⟩ := line
  refine ⟨front ++ text,last,(List.append_assoc ..).symm,ended,?_⟩
  intro a member
  rcases List.mem_append.mp member with before | here
  · exact quiet a before
  · exact silent a here

theorem Line.of_append (present : l ≠ []) (line : Line ends (front ++ l)) : Line ends l := by
  obtain ⟨text,last,same,ended,silent⟩ := line
  have parts := List.dropLast_concat_getLast present
  rw [← parts,← List.append_assoc] at same
  obtain ⟨texts,lasts⟩ := List.append_inj' same rfl
  refine ⟨l.dropLast,last,?_,ended,?_⟩
  · rw [← lasts,parts]
  · intro a member
    apply silent
    rw [← texts]
    exact List.mem_append_right _ member

-- The lines that a stretch of a stream completes, after the part of a line
-- that came before it, and the part it leaves.
def collect (ends : α → Prop) [DecidablePred ends] : List α → List α → List (List α) × List α
  | part,[] => ([],part)
  | part,a :: rest =>
    if ends a then
      let later := collect ends [] rest
      ((part ++ [a]) :: later.1,later.2)
    else collect ends (part ++ [a]) rest

variable [DecidablePred ends]

theorem collect_append (part first second : List α) :
    collect ends part (first ++ second) =
      ((collect ends part first).1 ++ (collect ends (collect ends part first).2 second).1,
        (collect ends (collect ends part first).2 second).2) := by
  induction first generalizing part with
  | nil => rfl
  | cons a rest ih =>
    simp only [List.cons_append,collect]
    split
    · rw [ih []]
      rfl
    · exact ih _

theorem collect_quiet (part : List α) (quiet : ∀ a ∈ text, ¬ ends a) : collect ends part text = ([],part ++ text) := by
  induction text generalizing part with
  | nil => simp [collect]
  | cons a rest ih =>
    rw [collect,if_neg (quiet a List.mem_cons_self),ih _ fun b member => quiet b (List.mem_cons_of_mem _ member)]
    simp

theorem collect_line (line : Line ends l) : collect ends [] l = ([l],[]) := by
  obtain ⟨text,last,rfl,ended,quiet⟩ := line
  rw [collect_append,collect_quiet [] quiet]
  simp [collect,ended]

theorem collect_lines (stream : List α) (quiet : ∀ a ∈ part, ¬ ends a) :
    (∀ line ∈ (collect ends part stream).1, Line ends line) ∧ ∀ a ∈ (collect ends part stream).2, ¬ ends a := by
  induction stream generalizing part with
  | nil => exact ⟨by simp [collect],quiet⟩
  | cons a rest ih =>
    simp only [collect]
    split
    · rename_i ended
      have later := @ih [] (by simp)
      refine ⟨?_,later.2⟩
      intro line member
      rcases List.mem_cons.mp member with here | after
      · exact ⟨part,a,here,ended,quiet⟩
      · exact later.1 line after
    · rename_i open_
      apply ih
      exact List.forall_mem_append.mpr ⟨quiet,List.forall_mem_singleton.mpr open_⟩

end NetworkEx.StreamLines
