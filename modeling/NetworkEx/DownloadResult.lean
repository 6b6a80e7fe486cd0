import NetworkEx.FileAgreement

namespace NetworkEx.DownloadResult
open ByteStreams CText FileProtocol FileAgreement

-- What read and send can answer for a file of this content: its bytes in
-- blocks, up to the end or to an error; a count of the block, or -1.
structure Outcomes (content : Bytes) (sends : List (Piece MAXLINE × Int)) : Prop where
  read : joined (sends.map Prod.fst) <+: content
  answered : ∀ turn ∈ sends, -1 ≤ turn.2 ∧ turn.2 ≤ turn.1.val.length

-- The result does not rest on what sendn happened to hold, and tells whether
-- the file was opened and all of it given to TCP.
structure Right (files : Files) (filename : Bytes) (sends : List (Piece MAXLINE × Int)) : Prop where
  determined : ∀ garbage other, servFileDownload files filename garbage sends = servFileDownload files filename other sends
  result : ∀ garbage, (servFileDownload files filename garbage sends).1 =
    if files filename = some (servFileDownload files filename garbage sends).2 then 1 else -1

-- Something was read, and a send failed or all of the file was read and sent.
def Tells (content : Bytes) (sends : List (Piece MAXLINE × Int)) : Prop :=
  sends ≠ [] ∧ ((∃ turn ∈ sends, turn.2 = -1) ∨
    ((∀ turn ∈ sends, turn.2 = turn.1.val.length) ∧ joined (sends.map Prod.fst) = content))

theorem loop_turn (garbage : Int) (piece : Piece MAXLINE) (taken : 0 ≤ answer) (rest : List (Piece MAXLINE × Int)) :
    servDownloadLoop garbage ((piece,answer) :: rest) =
      ((servDownloadLoop answer rest).1,piece.val.take answer.toNat ++ (servDownloadLoop answer rest).2) := by
  rw [servDownloadLoop,if_neg (Int.not_lt.mpr taken)]

theorem loop_fails (garbage : Int) (piece : Piece MAXLINE) (rest : List (Piece MAXLINE × Int)) :
    servDownloadLoop garbage ((piece,-1) :: rest) = (-1,[]) := by
  simp [servDownloadLoop]

-- With a turn at all nothing is left of the uninitialised value.
theorem loop_determined (some : sends ≠ []) (garbage other : Int) :
    servDownloadLoop garbage sends = servDownloadLoop other sends := by
  cases sends with
  | nil => exact absurd rfl some
  | cons turn rest => rfl

theorem loop_shorter (garbage : Int) (answered : ∀ turn ∈ sends, -1 ≤ turn.2 ∧ turn.2 ≤ turn.1.val.length) :
    (servDownloadLoop garbage sends).2.length ≤ (joined (sends.map Prod.fst)).length ∧
      (¬ (∀ turn ∈ sends, turn.2 = turn.1.val.length) →
        (servDownloadLoop garbage sends).2.length < (joined (sends.map Prod.fst)).length) := by
  induction sends generalizing garbage with
  | nil => exact ⟨Nat.le_refl _,fun some => absurd (by simp) some⟩
  | cons turn rest ih =>
    obtain ⟨piece,answer⟩ := turn
    obtain ⟨here,later⟩ := List.forall_mem_cons.mp answered
    obtain ⟨below,short⟩ := ih answer later
    have block := piece.property.1
    have inside : answer ≤ piece.val.length := here.2
    rw [List.map_cons,joined_cons,List.length_append,List.forall_mem_cons]
    by_cases failed : answer = -1
    · subst failed
      rw [loop_fails]
      simp only [List.length_nil]
      exact ⟨Nat.zero_le _,fun _ => by omega⟩
    · have taken : 0 ≤ answer := by
        have least : -1 ≤ answer := here.1
        omega
      rw [loop_turn garbage piece taken,List.length_append,List.length_take]
      dsimp only
      constructor
      · omega
      · intro some
        by_cases whole : answer = piece.val.length
        · have less := short fun all => some ⟨whole,all⟩
          omega
        · omega

theorem loop_last (garbage : Int) (answered : ∀ turn ∈ sends, -1 ≤ turn.2 ∧ turn.2 ≤ turn.1.val.length) (some : sends ≠ []) :
    (servDownloadLoop garbage sends).1 = -1 ↔ ∃ turn ∈ sends, turn.2 = -1 := by
  induction sends generalizing garbage with
  | nil => exact absurd rfl some
  | cons turn rest ih =>
    obtain ⟨piece,answer⟩ := turn
    obtain ⟨here,later⟩ := List.forall_mem_cons.mp answered
    by_cases failed : answer = -1
    · subst failed
      rw [loop_fails]
      exact iff_of_true rfl ⟨(piece,-1),List.mem_cons_self,rfl⟩
    · have taken : 0 ≤ answer := by
        have least : -1 ≤ answer := here.1
        omega
      have behind : (∃ turn ∈ (piece,answer) :: rest, turn.2 = -1) ↔ ∃ turn ∈ rest, turn.2 = -1 := by simp [failed]
      rw [loop_turn garbage piece taken,behind]
      cases rest with
      | nil => simp [servDownloadLoop,failed]
      | cons next rest => exact ih answer later (by simp)

theorem download_present (present : files filename = some content) (garbage : Int) (sends : List (Piece MAXLINE × Int)) :
    servFileDownload files filename garbage sends =
      (if (servDownloadLoop garbage sends).1 = -1 then -1 else 1,(servDownloadLoop garbage sends).2) := by
  rw [servFileDownload,present]
  simp only
  split <;> rfl

theorem download_absent (absent : files filename = none) (sends : List (Piece MAXLINE × Int)) : Right files filename sends := by
  constructor
  · intro garbage other
    rw [servFileDownload,servFileDownload,absent]
  · intro garbage
    simp [servFileDownload,absent]

theorem some_of_right (present : files filename = some content) (right : Right files filename sends) : sends ≠ [] := by
  rintro rfl
  have same := congrArg Prod.fst (right.determined (-1) 0)
  rw [download_present present,download_present present] at same
  exact absurd same (by decide)

-- No count but a whole one lets TCP have all of the content.
theorem whole_counts (outcomes : Outcomes content sends) (sent : (servDownloadLoop garbage sends).2 = content) :
    ∀ turn ∈ sends, turn.2 = turn.1.val.length := by
  by_contra cut
  have less := (loop_shorter garbage outcomes.answered).2 cut
  have front := outcomes.read.length_le
  rw [← sent] at front
  omega

theorem tells_of_right (present : files filename = some content) (outcomes : Outcomes content sends)
    (right : Right files filename sends) : Tells content sends := by
  have some := some_of_right present right
  refine ⟨some,?_⟩
  by_cases failed : ∃ turn ∈ sends, turn.2 = -1
  · exact .inl failed
  · have result := right.result 0
    rw [download_present present,present] at result
    simp only [if_neg ((loop_last 0 outcomes.answered some).not.mpr failed),Option.some.injEq] at result
    have sent : content = (servDownloadLoop 0 sends).2 := by
      by_contra lost
      rw [if_neg lost] at result
      exact absurd result (by decide)
    have all := whole_counts outcomes sent.symm
    rw [servDownloadLoop_complete 0 all] at sent
    exact .inr ⟨all,sent.symm⟩

theorem right_of_tells (present : files filename = some content) (outcomes : Outcomes content sends)
    (tells : Tells content sends) : Right files filename sends := by
  obtain ⟨some,told⟩ := tells
  constructor
  · intro garbage other
    rw [download_present present,download_present present,loop_determined some garbage other]
  · intro garbage
    have last := loop_last garbage outcomes.answered some
    rw [download_present present,present]
    rcases told with failed | ⟨all,read⟩
    · simp only [if_pos (last.mpr failed),Option.some.injEq]
      have lost : content ≠ (servDownloadLoop garbage sends).2 := by
        intro same
        obtain ⟨turn,member,failed⟩ := failed
        have whole := whole_counts outcomes same.symm turn member
        omega
      rw [if_neg lost]
    · have sent : ¬ ∃ turn ∈ sends, turn.2 = -1 := by
        rintro ⟨turn,member,failed⟩
        have whole := all turn member
        omega
      simp only [if_neg (last.not.mpr sent),servDownloadLoop_complete garbage all,read,if_true]

theorem right_present (present : files filename = some content) (outcomes : Outcomes content sends) :
    Right files filename sends ↔ Tells content sends :=
  ⟨tells_of_right present outcomes,right_of_tells present outcomes⟩

theorem right_exact (outcomes : ∀ content, files filename = some content → Outcomes content sends) :
    Right files filename sends ↔ ∀ content, files filename = some content → Tells content sends := by
  cases present : files filename with
  | none => exact iff_of_true (download_absent present sends) nofun
  | some content =>
    rw [right_present present (outcomes content present)]
    constructor
    · rintro tells other ⟨⟩
      exact tells
    · intro tells
      exact tells content rfl

def threeBytes : Files := fun _ => some (ascii "abc")

def wholeSend : List (Piece MAXLINE × Int) := [(⟨ascii "abc",by decide⟩,3)]

theorem wholeSend_outcomes : ∀ content, threeBytes (ascii "f") = some content → Outcomes content wholeSend := by
  rintro content ⟨⟩
  exact ⟨List.prefix_rfl,by decide⟩

theorem right_exact_whole : Right threeBytes (ascii "f") wholeSend := by
  apply (right_exact wholeSend_outcomes).mpr
  rintro content ⟨⟩
  exact ⟨by decide,.inr ⟨by decide,rfl⟩⟩

theorem empty_file_undetermined :
    (servFileDownload (fun _ => some []) (ascii "f") (-1) []).1 = -1 ∧
    (servFileDownload (fun _ => some []) (ascii "f") 0 []).1 = 1 ∧ ¬ Right (fun _ => some []) (ascii "f") [] ∧
    servFileDownload threeBytes (ascii "f") 0 [(⟨ascii "abc",by decide⟩,1)] = (1,ascii "a") ∧
    ¬ Right threeBytes (ascii "f") [(⟨ascii "abc",by decide⟩,1)] := by
  refine ⟨by decide,by decide,?_,by decide,?_⟩
  · intro right
    exact absurd (right.determined (-1) 0) (by decide)
  · intro right
    exact absurd (right.result 0) (by decide)

end NetworkEx.DownloadResult
