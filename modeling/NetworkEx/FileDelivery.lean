import NetworkEx.FileAgreement

namespace NetworkEx.FileDelivery
open ByteStreams CText WireWords FileProtocol

-- A cut of the client's stream: the bytes of proc's one recv, then the rest.
structure Cut (query content : Bytes) where
  first : Piece querySize
  rest : List (Piece MAXLINE)
  whole : first.val ++ joined rest = query ++ content

-- Whatever the memory of `query` held, proc takes the same branch with the same
-- name, and leaves an upload exactly its content.
def Independent (cut : Cut query content) : Prop :=
  ∀ child : Child, child.stack.length = querySize → child.query = cut.first.val →
    child.recvs.map Prod.fst = cut.rest →
      request (overlay child.query child.stack) = request query ∧
        ∀ f_name, request query = .upload f_name → joined (child.recvs.map Prod.fst) = content

def Enough (query first : Bytes) : Prop :=
  match request query with
  | .upload _ => first.length = querySize
  | .download _ => first.length = querySize ∨ 0 ∈ first.drop 4
  | .list => 4 ≤ first.length
  | .unknown => 4 ≤ first.length ∨ ∃ b ∈ first, b ≠ 0

theorem request_cases (query : Bytes) :
    (word32 query = Q_UPLOAD ∧ request query = .upload (cstring ((query.drop 4).take nameField))) ∨
    (word32 query = Q_DOWNLOAD ∧ request query = .download (cstring ((query.drop 4).take nameField))) ∨
    (word32 query = Q_LIST ∧ request query = .list) ∨
    (word32 query ≠ Q_UPLOAD ∧ word32 query ≠ Q_DOWNLOAD ∧ word32 query ≠ Q_LIST ∧ request query = .unknown) := by
  unfold request
  by_cases upload : word32 query = Q_UPLOAD
  · simp [upload]
  by_cases download : word32 query = Q_DOWNLOAD
  · simp [download,Q_UPLOAD,Q_DOWNLOAD]
  by_cases list : word32 query = Q_LIST
  · simp [list,Q_UPLOAD,Q_DOWNLOAD,Q_LIST]
  · simp [upload,download,list]

theorem download_name (asked : request query = .download f_name) : f_name = cstring ((query.drop 4).take nameField) := by
  rcases request_cases query with ⟨_,shown⟩ | ⟨_,shown⟩ | ⟨_,shown⟩ | ⟨_,_,_,shown⟩
  · cases shown.symm.trans asked
  · cases shown.symm.trans asked; rfl
  · cases shown.symm.trans asked
  · cases shown.symm.trans asked

theorem known_bytes (known : word32 bytes = Q_UPLOAD ∨ word32 bytes = Q_DOWNLOAD ∨ word32 bytes = Q_LIST) :
    (∀ i < 3, bytes.getD i 0 = 0) ∧ bytes.getD 3 0 ≠ 255 := by
  have shown := be32_word32 bytes
  have checked : ∀ low : UInt8, low ≠ 255 → [0,0,0,low] = [bytes.getD 0 0,bytes.getD 1 0,bytes.getD 2 0,bytes.getD 3 0] →
      (∀ i < 3, bytes.getD i 0 = 0) ∧ bytes.getD 3 0 ≠ 255 := by
    intro low other same
    simp only [List.cons.injEq,and_true] at same
    obtain ⟨zero,one,two,last⟩ := same
    refine ⟨?_,by rw [← last]; exact other⟩
    intro i inside
    have which : i = 0 ∨ i = 1 ∨ i = 2 := by omega
    rcases which with rfl | rfl | rfl
    · exact zero.symm
    · exact one.symm
    · exact two.symm
  rcases known with same | same | same
  · rw [same] at shown; exact checked 1 (by decide) shown
  · rw [same] at shown; exact checked 2 (by decide) shown
  · rw [same] at shown; exact checked 3 (by decide) shown

theorem request_unknown (unknown : ¬ (word32 query = Q_UPLOAD ∨ word32 query = Q_DOWNLOAD ∨ word32 query = Q_LIST)) :
    request query = .unknown := by
  rcases request_cases query with ⟨same,_⟩ | ⟨same,_⟩ | ⟨same,_⟩ | ⟨_,_,_,done⟩
  · exact absurd (.inl same) unknown
  · exact absurd (.inr (.inl same)) unknown
  · exact absurd (.inr (.inr same)) unknown
  · exact done

theorem command_kept (long : 4 ≤ first.length) (behind other : Bytes) :
    word32 (first ++ behind) = word32 (first ++ other) := by
  apply word32_congr
  rw [List.take_append_of_le_length long,List.take_append_of_le_length long]

theorem command_read {first : Bytes} (terminated : 0 ∈ first.drop 4) : 4 ≤ first.length := by
  apply Classical.byContradiction
  intro short
  rw [List.drop_eq_nil_of_le (by omega)] at terminated
  cases terminated

theorem name_found {first behind : Bytes} (terminated : 0 ∈ first.drop 4) (sized : (first ++ behind).length = querySize) :
    cstring (((first ++ behind).drop 4).take nameField) = cstring (first.drop 4) := by
  have long := command_read terminated
  have field : (first.drop 4 ++ behind).length ≤ nameField := by
    simp only [List.length_append,List.length_drop,querySize,nameField] at sized ⊢
    omega
  rw [List.drop_append_of_le_length long,List.take_of_length_le field,cstring_append terminated]

theorem enough_request {first behind stack : Bytes} (split : query = first ++ behind) (enough : Enough query first)
    (sized : query.length = querySize) (stacked : stack.length = querySize) :
    request (overlay first stack) = request query := by
  subst split
  have over_sized : (first ++ stack.drop first.length).length = querySize := by
    simp only [List.length_append,List.length_drop,querySize] at sized stacked ⊢; omega
  have full : first.length = querySize → request (overlay first stack) = request (first ++ behind) := by
    intro full
    have ended : behind = [] := List.length_eq_zero_iff.mp (by simp only [List.length_append] at sized; omega)
    rw [overlay_whole (by omega),ended,List.append_nil]
  unfold Enough at enough
  rcases request_cases (first ++ behind) with ⟨_,asked⟩ | ⟨command,asked⟩ | ⟨command,asked⟩ | ⟨upload,download,list,asked⟩
  · rw [asked] at enough
    exact full enough
  · rw [asked] at enough
    rcases enough with whole | terminated
    · exact full whole
    · have long := command_read terminated
      rw [asked,name_found terminated sized,← name_found terminated over_sized]
      unfold request overlay
      rw [command_kept long _ behind,command]
      rfl
  · rw [asked] at enough
    rw [asked]
    unfold request overlay
    rw [command_kept enough _ behind,command]
    rfl
  · rw [asked] at enough ⊢
    apply request_unknown
    by_cases long : 4 ≤ first.length
    · rw [overlay,command_kept long _ behind]
      simp [upload,download,list]
    · intro known
      obtain ⟨b,member,other⟩ := enough.resolve_left long
      obtain ⟨i,inside,rfl⟩ := List.getElem_of_mem member
      have byte := (known_bytes known).1 i (by omega)
      rw [List.getD_eq_getElem?_getD,overlay_getElem?,if_pos inside,List.getElem?_eq_getElem inside] at byte
      exact other byte

theorem request_short (short : first.length < 4) :
    request (overlay first (List.replicate querySize 255)) = .unknown := by
  have low : (overlay first (List.replicate querySize 255)).getD 3 0 = 255 := by
    rw [List.getD_eq_getElem?_getD,overlay_getElem?,if_neg (by omega)]; rfl
  exact request_unknown fun known => (known_bytes known).2 low

section Cuts

variable {query content : Bytes} {cut : Cut query content}

theorem cut_split (sized : query.length = querySize) : ∃ behind, query = cut.first.val ++ behind := by
  have fits := cut.first.property.2
  have front := congrArg (List.take cut.first.val.length) cut.whole
  rw [List.take_left,List.take_append_of_le_length (by omega)] at front
  exact ⟨query.drop cut.first.val.length,by conv_lhs => rw [← List.take_append_drop cut.first.val.length query,← front]⟩

theorem cut_rest (sized : query.length = querySize) : joined cut.rest = content ↔ cut.first.val.length = querySize := by
  have lengths := congrArg List.length cut.whole
  simp only [List.length_append,sized] at lengths
  constructor
  · intro same; rw [same] at lengths; omega
  · intro full
    exact (List.append_inj cut.whole (by omega)).2

def onStack (cut : Cut query content) (stack : Bytes) : Child :=
  ⟨stack,cut.first.val,cut.rest.map fun piece => (piece,some piece.val.length),0,[]⟩

theorem independent_request (independent : Independent cut) (stack : Bytes) (sized : stack.length = querySize) :
    request (overlay cut.first.val stack) = request query :=
  (independent (onStack cut stack) sized rfl (by simp [onStack,Function.comp_def])).1

theorem independent_rest (independent : Independent cut) (asked : request query = .upload f_name) :
    joined cut.rest = content := by
  have turns : (onStack cut (List.replicate querySize 0)).recvs.map Prod.fst = cut.rest := by
    simp [onStack,Function.comp_def]
  rw [← turns]
  exact (independent (onStack cut (List.replicate querySize 0)) (by simp [onStack]) rfl turns).2 f_name asked

-- A name cut before its NUL ends where the memory lets it: at once in front of
-- zeros, nowhere in front of other bytes.
theorem download_needs (independent : Independent cut)
    (asked : request query = .download f_name) : cut.first.val.length = querySize ∨ 0 ∈ cut.first.val.drop 4 := by
  apply Classical.byContradiction
  intro cut_short
  obtain ⟨part,unended⟩ := not_or.mp cut_short
  have fits := cut.first.property.2
  have zeros := independent_request independent (List.replicate querySize 0) (by simp)
  have ones := independent_request independent (List.replicate querySize 255) (by simp)
  by_cases long : 4 ≤ cut.first.val.length
  · have at_zeros : 0 ∈ ((overlay cut.first.val (List.replicate querySize 0)).drop 4).take nameField := by
      rw [overlay,List.drop_append_of_le_length long,List.take_of_length_le]
      · rw [List.drop_replicate]
        exact List.mem_append_right _ (List.mem_replicate.mpr ⟨by omega,rfl⟩)
      · simp only [List.length_append,List.length_drop,List.length_replicate,querySize,nameField] at fits ⊢
        omega
    have at_ones : 0 ∉ ((overlay cut.first.val (List.replicate querySize 255)).drop 4).take nameField := by
      intro member
      have inside := List.mem_of_mem_take member
      rw [overlay,List.drop_append_of_le_length long,List.mem_append,List.drop_replicate] at inside
      rcases inside with inside | inside
      · exact unended inside
      · exact absurd (List.mem_replicate.mp inside).2 (by decide)
    have named := cstring_isSome.mpr at_zeros
    rw [← download_name (zeros.trans asked),download_name (ones.trans asked)] at named
    exact at_ones (cstring_isSome.mp named)
  · rw [request_short (by omega),asked] at ones
    cases ones

theorem unknown_needs (independent : Independent cut) (asked : request query = .unknown) :
    4 ≤ cut.first.val.length ∨ ∃ b ∈ cut.first.val, b ≠ 0 := by
  apply Classical.byContradiction
  intro cut_short
  obtain ⟨short,zeros⟩ := not_or.mp cut_short
  have positive := cut.first.property.1
  have silent : cut.first.val = List.replicate cut.first.val.length 0 := by
    apply List.eq_replicate_of_mem
    intro b member
    exact Classical.byContradiction fun other => zeros ⟨b,member,other⟩
  have listed := independent_request independent (be32 Q_LIST ++ List.replicate nameField 0) (by decide)
  have which : cut.first.val.length = 1 ∨ cut.first.val.length = 2 ∨ cut.first.val.length = 3 := by omega
  rw [silent,asked] at listed
  rcases which with length | length | length <;> rw [length] at listed <;> cases listed

theorem delivery_exact (sized : query.length = querySize) : Independent cut ↔ Enough query cut.first.val := by
  constructor
  · intro independent
    unfold Enough
    cases asked : request query with
    | upload f_name => exact (cut_rest sized).mp (independent_rest independent asked)
    | download f_name => exact download_needs independent asked
    | list =>
      apply Classical.byContradiction
      intro short
      have taken := independent_request independent (List.replicate querySize 255) (by simp)
      rw [request_short (by omega),asked] at taken
      cases taken
    | unknown => exact unknown_needs independent asked
  · intro enough child stacked received turns
    obtain ⟨behind,split⟩ : ∃ behind, query = cut.first.val ++ behind := cut_split sized
    refine ⟨?_,?_⟩
    · rw [received]
      exact enough_request split enough sized stacked
    · intro f_name asked
      simp only [Enough,asked] at enough
      rw [turns]
      exact (cut_rest sized).mpr enough

end Cuts

def testQuery (command : BitVec 32) : Bytes := be32 command ++ (ascii "a" ++ List.replicate 63 0)

def splitCommand (command : BitVec 32) : Cut (testQuery command) [7] where
  first := ⟨be32 command,by simp [querySize]⟩
  rest := [⟨ascii "a" ++ List.replicate 63 0,by decide⟩,oneByte 7]
  whole := rfl

theorem delivery_exact_upload : Independent (splitCommand Q_UPLOAD) ↔ Enough (testQuery Q_UPLOAD) (be32 Q_UPLOAD) :=
  delivery_exact rfl

theorem split_query_lost :
    ¬ Independent (splitCommand Q_UPLOAD) ∧ ¬ Independent (splitCommand Q_DOWNLOAD) ∧
    joined (splitCommand Q_UPLOAD).rest = ascii "a" ++ List.replicate 63 0 ++ [7] := by
  refine ⟨?_,?_,by decide⟩
  · intro independent
    have taken := independent_request independent (List.replicate querySize 255) (by simp)
    have unnamed : request (overlay (splitCommand Q_UPLOAD).first.val (List.replicate querySize 255)) = .upload none := rfl
    rw [unnamed] at taken
    cases taken
  · intro independent
    have taken := independent_request independent (List.replicate querySize 255) (by simp)
    have unnamed : request (overlay (splitCommand Q_DOWNLOAD).first.val (List.replicate querySize 255)) = .download none := rfl
    rw [unnamed] at taken
    cases taken

end NetworkEx.FileDelivery
