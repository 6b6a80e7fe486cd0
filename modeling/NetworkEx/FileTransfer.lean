import NetworkEx.FileAgreement

namespace NetworkEx.FileTransfer
open ByteStreams FileProtocol FileAgreement

def answered (pieces : List (Piece MAXLINE)) : List (Piece MAXLINE × Int) :=
  pieces.map fun piece => (piece,(piece.val.length : Int))

def written (pieces : List (Piece MAXLINE)) : List (Piece MAXLINE × Option Nat) :=
  pieces.map fun piece => (piece,some piece.val.length)

theorem answered_pieces (pieces : List (Piece MAXLINE)) : (answered pieces).map Prod.fst = pieces := by
  simp [answered,Function.comp_def]

theorem written_pieces (pieces : List (Piece MAXLINE)) : (written pieces).map Prod.fst = pieces := by
  simp [written,Function.comp_def]

theorem answered_all (pieces : List (Piece MAXLINE)) : ∀ turn ∈ answered pieces, turn.2 = turn.1.val.length := by
  intro turn member
  obtain ⟨piece,_,rfl⟩ := List.mem_map.mp member
  rfl

theorem written_all (pieces : List (Piece MAXLINE)) : ∀ turn ∈ written pieces, turn.2 = some turn.1.val.length := by
  intro turn member
  obtain ⟨piece,_,rfl⟩ := List.mem_map.mp member
  rfl

theorem sendLoop_answered (pieces : List (Piece MAXLINE)) : sendLoop (answered pieces) = (1,joined pieces) := by
  induction pieces with
  | nil => rfl
  | cons piece rest ih =>
    have onward : sendLoop (rest.map fun piece => (piece,(piece.val.length : Int))) = (1,joined rest) := ih
    simp only [answered,List.map_cons,sendLoop,ne_eq,not_true_eq_false,if_false,onward,joined_cons]

theorem recvLoop_answered (inside : offset ≤ file.length) (pieces : List (Piece MAXLINE)) :
    recvLoop file offset (answered pieces) = (1,writeAt file offset (joined pieces)) := by
  induction pieces generalizing file offset with
  | nil => rw [joined_nil,writeAt_nil inside]; rfl
  | cons piece rest ih =>
    have onward : recvLoop (writeAt file offset piece.val) (offset + piece.val.length)
        (rest.map fun piece => (piece,(piece.val.length : Int))) =
        (1,writeAt (writeAt file offset piece.val) (offset + piece.val.length) (joined rest)) :=
      ih (writeAt_reaches inside piece.val)
    simp only [answered,List.map_cons,recvLoop,Int.toNat_natCast,List.take_length,ne_eq,not_true_eq_false,if_false,onward,
      writeAt_writeAt inside,joined_cons]

-- Both sending loops put out the stream itself, and both receiving loops lay it
-- over the old file, each in a cut of its own.
theorem transfer_overlays (read : joined sending = stream) (arrived : joined receiving = stream) (old : Bytes) (garbage : Int) :
    sendLoop (answered sending) = (1,stream) ∧ (servDownloadLoop garbage (answered sending)).2 = stream ∧
      servUploadLoop old 0 (written receiving) = stream ++ old.drop stream.length ∧
      recvLoop old 0 (answered receiving) = (1,stream ++ old.drop stream.length) := by
  refine ⟨?_,?_,?_,?_⟩
  · rw [sendLoop_answered,read]
  · rw [servDownloadLoop_complete garbage (answered_all sending),answered_pieces,read]
  · rw [servUploadLoop_complete (Nat.zero_le _) (written_all receiving),written_pieces,arrived,writeAt_zero,overlay]
  · rw [recvLoop_answered (Nat.zero_le _),arrived,writeAt_zero,overlay]

theorem transfer_overlays_three :
    servUploadLoop [9,9,9,9] 0 (written [oneByte 1,oneByte 2,oneByte 3]) = [1,2,3] ++ List.drop 3 [9,9,9,9] ∧
      sendLoop (answered (blocks MAXLINE (by decide) [1,2,3])) = (1,[1,2,3]) := by
  have arrived : joined [oneByte 1,oneByte 2,oneByte 3] = [1,2,3] := rfl
  have all := transfer_overlays (joined_blocks (by decide : 0 < MAXLINE) [1,2,3]) arrived [9,9,9,9] 0
  exact ⟨all.2.2.1,all.1⟩

end NetworkEx.FileTransfer
