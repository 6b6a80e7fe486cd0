import Mathlib.Data.List.Basic
import Mathlib.Data.List.GetD
import Mathlib.Data.List.TakeWhile

namespace NetworkEx.TokenText

variable {α : Type u} (sep : α → Bool)

def cutWord (text : List α) : Option (List α × List α) :=
  match text.dropWhile sep with
  | [] => none
  | a :: rest => some ((a :: rest).takeWhile (!sep ·),(a :: rest).dropWhile (!sep ·))

-- The first k words. Going on from one skips the separator that ended it.
def words : Nat → List α → List (List α)
  | 0,_ => []
  | k+1,text =>
    match cutWord sep text with
    | none => []
    | some (word,after) => word :: words k (after.drop 1)

-- How far the first k words reach into the text.
def extent : Nat → List α → Nat
  | 0,_ => 0
  | k+1,text =>
    match cutWord sep text with
    | none => 0
    | some (_,after) =>
      let later := extent k (after.drop 1)
      text.length - after.length + if later = 0 then 0 else later + 1

-- There are k words, and behind each of them a separator.
def Closed : Nat → List α → Prop
  | 0,_ => True
  | k+1,text =>
    match cutWord sep text with
    | none => False
    | some (_,after) => after ≠ [] ∧ Closed k (after.drop 1)

-- A text in three parts: separators, a word, and nothing or what a separator
-- begins.
structure Parts (text lead word after : List α) : Prop where
  whole : text = lead ++ (word ++ after)
  lead : ∀ a ∈ lead, sep a = true
  present : word ≠ []
  word : ∀ a ∈ word, sep a = false
  behind : ∀ a ∈ after.head?, sep a = true

-- The maximal runs of other elements: the pieces between separators that are
-- not empty.
def runs (text : List α) : List (List α) := (text.splitOnP sep).filter fun piece => !piece.isEmpty

variable {sep}

theorem first_failing (p : α → Bool) (text : List α) :
    ((∀ a ∈ text, p a = true) ∧ text.dropWhile p = []) ∨
    ∃ front b rest, text = front ++ b :: rest ∧ (∀ a ∈ front, p a = true) ∧ p b = false ∧ text.takeWhile p = front ∧
      text.dropWhile p = b :: rest := by
  have parts := List.takeWhile_append_dropWhile (p := p) (l := text)
  have fails := List.head?_dropWhile_not p text
  cases left : text.dropWhile p with
  | nil => exact .inl ⟨List.dropWhile_eq_nil_iff.mp left,rfl⟩
  | cons b rest =>
    rw [left] at parts fails
    exact .inr ⟨text.takeWhile p,b,rest,parts.symm,fun a member => List.mem_takeWhile_imp member,fails,rfl,rfl⟩

theorem cutWord_none : cutWord sep text = none ↔ ∀ a ∈ text, sep a = true := by
  rw [← List.dropWhile_eq_nil_iff,cutWord]
  cases text.dropWhile sep with
  | nil => exact iff_of_true rfl rfl
  | cons a rest => exact iff_of_false nofun nofun

theorem cutWord_parts (parts : Parts sep text lead word after) : cutWord sep text = some (word,after) := by
  obtain ⟨rfl,skipped,present,inside,behind⟩ := parts
  obtain ⟨a,more,rfl⟩ := List.exists_cons_of_ne_nil present
  have first : sep a = false := inside a List.mem_cons_self
  have letters : ∀ b ∈ a :: more, (!sep b) = true := by
    intro b member
    rw [inside b member]
    rfl
  have stops : after.takeWhile (!sep ·) = [] ∧ after.dropWhile (!sep ·) = after := by
    cases after with
    | nil => exact ⟨rfl,rfl⟩
    | cons b rest =>
      have ends : sep b = true := behind b rfl
      simp [ends]
  have skips : (lead ++ (a :: more ++ after)).dropWhile sep = a :: (more ++ after) := by
    rw [List.dropWhile_append_of_pos skipped]
    simp [first]
  have taken : (a :: (more ++ after)).takeWhile (!sep ·) = a :: more := by
    rw [← List.cons_append,List.takeWhile_append_of_pos letters,stops.1,List.append_nil]
  have left : (a :: (more ++ after)).dropWhile (!sep ·) = after := by
    rw [← List.cons_append,List.dropWhile_append_of_pos letters,stops.2]
  rw [cutWord,skips]
  simp only [taken,left]

theorem cutWord_some (cut : cutWord sep text = some (word,after)) : ∃ lead, Parts sep text lead word after := by
  have first := List.head?_dropWhile_not sep text
  have letters : ∀ rest : List α, ∀ b ∈ rest.takeWhile (!sep ·), sep b = false := by
    intro rest b member
    have kept : (!sep b) = true := List.mem_takeWhile_imp (p := (!sep ·)) member
    rwa [Bool.not_eq_true'] at kept
  unfold cutWord at cut
  split at cut
  · cases cut
  · rename_i a rest found
    simp only [Option.some.injEq,Prod.mk.injEq] at cut
    obtain ⟨rfl,rfl⟩ := cut
    rw [found] at first
    have opens : sep a = false := first
    refine ⟨text.takeWhile sep,?_,fun b member => List.mem_takeWhile_imp member,by simp [opens],letters _,?_⟩
    · rw [List.takeWhile_append_dropWhile,← found,List.takeWhile_append_dropWhile]
    · intro b here
      have stops := List.head?_dropWhile_not (!sep ·) (a :: rest)
      rw [here] at stops
      simpa using stops

theorem words_none (clear : ∀ a ∈ text, sep a = true) (k : Nat) : words sep k text = [] := by
  cases k with
  | zero => rfl
  | succ k => simp only [words,cutWord_none.mpr clear]

theorem words_parts (parts : Parts sep text lead word after) (k : Nat) :
    words sep (k+1) text = word :: words sep k (after.drop 1) := by
  simp only [words,cutWord_parts parts]

theorem extent_parts (parts : Parts sep text lead word after) (k : Nat) :
    extent sep (k+1) text = lead.length + word.length +
      if extent sep k (after.drop 1) = 0 then 0 else extent sep k (after.drop 1) + 1 := by
  have through : text.length - after.length = lead.length + word.length := by
    rw [parts.whole,List.length_append,List.length_append]
    omega
  simp only [extent,cutWord_parts parts,through]

-- The words of a text that was cut off, beside its own: they stop before one
-- of these, or inside it.
inductive Torn : List (List α) → List (List α) → Prop where
  | before : Torn [] (word :: later)
  | inside (short : part.length < word.length) : Torn [part] (word :: later)
  | behind (torn : Torn pieces later) : Torn (word :: pieces) (word :: later)

theorem parts_torn (parts : Parts sep text lead word after) (past : lead.length < n)
    (within : n < lead.length + word.length) : Parts sep (text.take n) lead (word.take (n - lead.length)) [] := by
  refine ⟨?_,parts.lead,?_,fun a member => parts.word a (List.mem_of_mem_take member),nofun⟩
  · rw [parts.whole,List.take_append,List.take_of_length_le (by omega),List.take_append_of_le_length (by omega),
      List.append_nil]
  · apply List.ne_nil_of_length_pos
    rw [List.length_take]
    omega

theorem parts_kept (parts : Parts sep text lead word after) (past : lead.length + word.length ≤ n) :
    Parts sep (text.take n) lead word (after.take (n - lead.length - word.length)) := by
  refine ⟨?_,parts.lead,parts.present,parts.word,?_⟩
  · rw [parts.whole,List.take_append,List.take_append,List.take_of_length_le (by omega),
      List.take_of_length_le (by omega)]
  · intro a here
    cases after with
    | nil => simp at here
    | cons b rest =>
      rw [List.head?_take] at here
      split at here
      · cases here
      · exact parts.behind a here

-- A text that is cut behind its first k words still has them, and one that is
-- cut before their end does not.
theorem words_take (k : Nat) (text : List α) (n : Nat) :
    if extent sep k text ≤ n then words sep k (text.take n) = words sep k text
    else Torn (words sep k (text.take n)) (words sep k text) := by
  induction k generalizing text n with
  | zero => exact if_pos (Nat.zero_le n) ▸ rfl
  | succ k ih =>
    cases cut : cutWord sep text with
    | none =>
      have clear := cutWord_none.mp cut
      have nothing : extent sep (k+1) text = 0 := by simp only [extent,cut]
      rw [if_pos (by omega),words_none clear,words_none fun a member => clear a (List.mem_of_mem_take member)]
    | some pair =>
      obtain ⟨word,after⟩ := pair
      obtain ⟨lead,parts⟩ := cutWord_some cut
      have letters := List.length_pos_iff.mpr parts.present
      have reach := extent_parts parts k
      rw [words_parts parts]
      by_cases early : n ≤ lead.length
      · have skipped : ∀ a ∈ text.take n, sep a = true := by
          rw [parts.whole,List.take_append_of_le_length early]
          exact fun a member => parts.lead a (List.mem_of_mem_take member)
        rw [if_neg (by omega),words_none skipped]
        exact .before
      · by_cases within : n < lead.length + word.length
        · rw [if_neg (by omega),words_parts (parts_torn parts (Nat.lt_of_not_le early) within),words_none (by simp)]
          exact .inside (by rw [List.length_take]; omega)
        · have onward := ih (after.drop 1) (n - lead.length - word.length - 1)
          rw [words_parts (parts_kept parts (Nat.le_of_not_lt within)),List.drop_take]
          by_cases enough : extent sep k (after.drop 1) ≤ n - lead.length - word.length - 1
          · rw [if_pos enough] at onward
            rw [if_pos (by split at reach <;> omega),onward]
          · rw [if_neg enough] at onward
            rw [if_neg (by split at reach <;> omega)]
            exact .behind onward

theorem words_present (k : Nat) (text : List α) : ∀ word ∈ words sep k text, word ≠ [] := by
  induction k generalizing text with
  | zero => exact fun word member => by cases member
  | succ k ih =>
    cases cut : cutWord sep text with
    | none =>
      simp only [words,cut]
      exact fun word member => by cases member
    | some pair =>
      obtain ⟨first,after⟩ := pair
      obtain ⟨lead,parts⟩ := cutWord_some cut
      rw [words_parts parts]
      intro word member
      rcases List.mem_cons.mp member with here | later
      · rw [here]
        exact parts.present
      · exact ih _ word later

theorem words_length (k : Nat) (text : List α) : (words sep k text).length ≤ k := by
  induction k generalizing text with
  | zero => exact Nat.le_refl _
  | succ k ih =>
    cases cut : cutWord sep text with
    | none =>
      simp only [words,cut]
      exact Nat.zero_le _
    | some pair =>
      simp only [words,cut,List.length_cons]
      exact Nat.succ_le_succ (ih _)

theorem torn_shorter {pieces later : List (List α)} (torn : Torn pieces later) (i : Nat) :
    (pieces.getD i []).length ≤ (later.getD i []).length := by
  induction torn generalizing i with
  | before => simp
  | inside short =>
    cases i with
    | zero => exact Nat.le_of_lt short
    | succ i => simp
  | behind _ ih =>
    cases i with
    | zero => exact Nat.le_refl _
    | succ i => exact ih i

theorem torn_last {pieces later : List (List α)} (torn : Torn pieces later) (present : ∀ word ∈ later, word ≠ []) :
    (pieces.getD (later.length - 1) []).length < (later.getD (later.length - 1) []).length := by
  induction torn with
  | before =>
    rename_i word later
    have last : (word :: later).length - 1 < (word :: later).length := by simp
    rw [List.getD_eq_getElem _ _ last]
    exact List.length_pos_iff.mpr (present _ (List.getElem_mem last))
  | inside short =>
    rename_i part word later
    cases later with
    | nil => exact short
    | cons next more =>
      have last : more.length < (next :: more).length := by simp
      show ([part].getD (more.length+1) []).length < ((word :: next :: more).getD (more.length+1) []).length
      simp only [List.getD_cons_succ,List.getD_nil,List.length_nil]
      rw [List.getD_eq_getElem _ _ last]
      exact List.length_pos_iff.mpr (present _ (List.mem_cons_of_mem _ (List.getElem_mem last)))
  | behind torn ih =>
    rename_i pieces later word
    have onward := ih fun w member => present w (List.mem_cons_of_mem _ member)
    cases later with
    | nil => cases torn
    | cons next more => exact onward

theorem runs_break (front : List α) (ends : sep a = true) (rest : List α) :
    runs sep (front ++ a :: rest) = runs sep front ++ runs sep rest := by
  rw [runs,List.splitOnP_append_cons front rest ends,List.filter_append]
  rfl

theorem runs_skip (skipped : ∀ a ∈ lead, sep a = true) (rest : List α) : runs sep (lead ++ rest) = runs sep rest := by
  induction lead with
  | nil => rfl
  | cons a lead ih =>
    have onward := ih fun b member => skipped b (List.mem_cons_of_mem _ member)
    have broken := runs_break [] (skipped a List.mem_cons_self) (lead ++ rest)
    rw [List.cons_append,← onward]
    exact broken

theorem runs_alone (present : word ≠ []) (letters : ∀ a ∈ word, sep a = false) : runs sep word = [word] := by
  rw [runs,List.splitOnP_eq_singleton letters]
  simp [present]

theorem runs_clear (clear : ∀ a ∈ text, sep a = true) : runs sep text = [] := by
  have skipped := runs_skip clear []
  rw [List.append_nil] at skipped
  exact skipped

theorem runs_parts (parts : Parts sep text lead word after) : runs sep text = word :: runs sep (after.drop 1) := by
  rw [parts.whole,runs_skip parts.lead]
  cases after with
  | nil =>
    rw [List.append_nil,runs_alone parts.present parts.word]
    rfl
  | cons stop later =>
    rw [runs_break word (parts.behind stop rfl),runs_alone parts.present parts.word]
    rfl

theorem words_runs (k : Nat) (text : List α) : words sep k text = (runs sep text).take k := by
  induction k generalizing text with
  | zero => rfl
  | succ k ih =>
    cases cut : cutWord sep text with
    | none =>
      have clear := cutWord_none.mp cut
      rw [words_none clear,runs_clear clear]
      rfl
    | some pair =>
      obtain ⟨word,after⟩ := pair
      obtain ⟨lead,parts⟩ := cutWord_some cut
      rw [words_parts parts,runs_parts parts,List.take_succ_cons,ih]

theorem runs_gap {gap : List α} (some : gap ≠ []) (between : ∀ a ∈ gap, sep a = true) (front rest : List α) :
    runs sep (front ++ (gap ++ rest)) = runs sep front ++ runs sep rest := by
  obtain ⟨a,more,rfl⟩ := List.exists_cons_of_ne_nil some
  rw [List.cons_append,runs_break front (between a List.mem_cons_self),
    runs_skip fun b member => between b (List.mem_cons_of_mem _ member)]

end NetworkEx.TokenText
