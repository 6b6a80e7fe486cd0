import Mathlib.Data.List.Basic

namespace NetworkEx.BlockFifo

variable {α : Type u} {queue next block taken : List α} {blocks : List (List α)}

-- A FIFO with room for `capacity` elements. A write waits until all it brings
-- fits; a read waits for a first element and takes at most `limit`.
def push (capacity : Nat) (queue block : List α) : Option (List α) :=
  if queue.length + block.length ≤ capacity then some (queue ++ block) else none

def pull (limit : Nat) (queue : List α) : Option (List α × List α) :=
  if queue.length = 0 then none else some (queue.take limit,queue.drop limit)

theorem push_parts (pushed : push capacity queue block = some next) :
    next = queue ++ block ∧ next.length ≤ capacity := by
  unfold push at pushed
  split at pushed
  · rename_i fits
    cases pushed
    exact ⟨rfl,by rw [List.length_append]; exact fits⟩
  · cases pushed

theorem pull_parts (pulled : pull limit queue = some (taken,next)) :
    taken = queue.take limit ∧ next = queue.drop limit ∧ 0 < queue.length := by
  unfold pull at pulled
  split at pulled
  · cases pulled
  · rename_i some
    cases pulled
    exact ⟨rfl,rfl,Nat.pos_of_ne_zero some⟩

-- What a queue holds to which only blocks of one size were ever written.
structure Carries (size : Nat) (blocks : List (List α)) (queue : List α) : Prop where
  whole : queue = blocks.flatten
  sized : ∀ block ∈ blocks, block.length = size

theorem carries_nil (size : Nat) : Carries size [] ([] : List α) := ⟨rfl,by simp⟩

theorem carries_length (carries : Carries size blocks queue) : queue.length = size * blocks.length := by
  obtain ⟨rfl,sized⟩ := carries
  induction blocks with
  | nil => rfl
  | cons block blocks ih =>
    have first := sized block List.mem_cons_self
    have rest := ih fun other member => sized other (List.mem_cons_of_mem _ member)
    rw [List.flatten_cons,List.length_append,first,rest,List.length_cons,Nat.mul_succ]
    omega

theorem carries_push (carries : Carries size blocks queue) (fits : block.length = size)
    (pushed : push capacity queue block = some next) : Carries size (blocks ++ [block]) next := by
  obtain ⟨rfl,_⟩ := push_parts pushed
  refine ⟨by simp [carries.whole],?_⟩
  exact List.forall_mem_append.mpr ⟨carries.sized,List.forall_mem_singleton.mpr fits⟩

theorem carries_pull (carries : Carries size blocks queue) (pulled : pull size queue = some (taken,next)) :
    ∃ rest, blocks = taken :: rest ∧ Carries size rest next := by
  obtain ⟨rfl,rfl,some⟩ := pull_parts pulled
  obtain ⟨rfl,sized⟩ := carries
  cases blocks with
  | nil => exact absurd some (Nat.lt_irrefl 0)
  | cons block rest =>
    have here := sized block List.mem_cons_self
    refine ⟨rest,?_,?_,fun other member => sized other (List.mem_cons_of_mem _ member)⟩
    · rw [List.flatten_cons,List.take_left' here]
    · rw [List.flatten_cons,List.drop_left' here]

theorem carries_pulls (positive : 0 < size) (carries : Carries size (block :: blocks) queue) :
    ∃ next, pull size queue = some (block,next) ∧ Carries size blocks next := by
  have some : queue.length ≠ 0 := by
    rw [carries_length carries,List.length_cons]
    exact Nat.mul_ne_zero (Nat.ne_of_gt positive) (Nat.succ_ne_zero _)
  have pulled : pull size queue = Option.some (queue.take size,queue.drop size) := if_neg some
  obtain ⟨rest,same,onward⟩ := carries_pull carries pulled
  cases same
  exact ⟨queue.drop size,pulled,onward⟩

theorem carries_full (positive : 0 < size) (carries : Carries size blocks queue) (fits : block.length = size) :
    push capacity queue block = none ↔ capacity / size ≤ blocks.length := by
  have length := carries_length carries
  have room : push capacity queue block = none ↔ capacity < size * (blocks.length + 1) := by
    unfold push
    rw [length,fits,← Nat.mul_succ]
    simp
  rw [room,← Nat.lt_succ_iff,Nat.div_lt_iff_lt_mul positive,Nat.mul_comm]

theorem carries_within (positive : 0 < size) (carries : Carries size blocks queue) (within : queue.length ≤ capacity) :
    blocks.length ≤ capacity / size := by
  rw [Nat.le_div_iff_mul_le positive,Nat.mul_comm,← carries_length carries]
  exact within

end NetworkEx.BlockFifo
