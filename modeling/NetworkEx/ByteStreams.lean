import Mathlib.Data.List.Basic

namespace NetworkEx.ByteStreams

abbrev Bytes := List UInt8

-- What one successful read, recv or send carries: at least one byte and no
-- more than the buffer it was called with.
abbrev Piece (limit : Nat) := {bytes : Bytes // 0 < bytes.length ∧ bytes.length ≤ limit}

def joined (pieces : List (Piece limit)) : Bytes := pieces.flatMap Subtype.val

@[simp] theorem joined_nil : joined ([] : List (Piece limit)) = [] := rfl
@[simp] theorem joined_cons (piece : Piece limit) (rest : List (Piece limit)) :
    joined (piece :: rest) = piece.val ++ joined rest := rfl

-- Every stream has a cut, for instance the one a regular file is read by.
def blocks (limit : Nat) (positive : 0 < limit) (stream : Bytes) : List (Piece limit) :=
  if some : 0 < stream.length then
    ⟨stream.take limit,by rw [List.length_take]; omega⟩ :: blocks limit positive (stream.drop limit)
  else []
termination_by stream.length
decreasing_by rw [List.length_drop]; omega

theorem joined_blocks (positive : 0 < limit) (stream : Bytes) :
    joined (blocks limit positive stream) = stream := by
  induction stream using blocks.induct limit positive with
  | case1 stream some ih => rw [blocks,dif_pos some,joined_cons,ih,List.take_append_drop]
  | case2 stream none =>
    rw [blocks,dif_neg none]
    exact (List.length_eq_zero_iff.mp (by omega)).symm

-- Bytes copied over the front of a region, as recv does to its buffer and a
-- write from offset zero does to a file. What lies behind them stays.
def overlay (bytes region : Bytes) : Bytes := bytes ++ region.drop bytes.length

theorem overlay_length (bytes region : Bytes) :
    (overlay bytes region).length = max bytes.length region.length := by
  simp only [overlay,List.length_append,List.length_drop]; omega

@[simp] theorem overlay_nil (region : Bytes) : overlay [] region = region := rfl

theorem overlay_whole (longer : region.length ≤ bytes.length) : overlay bytes region = bytes := by
  rw [overlay,List.drop_eq_nil_of_le longer,List.append_nil]

theorem overlay_eq_iff (bytes region : Bytes) : overlay bytes region = bytes ↔ region.length ≤ bytes.length := by
  simp [overlay]

theorem overlay_getElem? (bytes region : Bytes) (i : Nat) :
    (overlay bytes region)[i]? = if i < bytes.length then bytes[i]? else region[i]? := by
  unfold overlay
  split
  · rename_i inside; exact List.getElem?_append_left inside
  · rename_i outside
    rw [List.getElem?_append_right (by omega),List.getElem?_drop]
    congr 1; omega

theorem overlay_overlay (bytes text region : Bytes) :
    overlay bytes (overlay text region) = overlay (overlay bytes text) region := by
  simp only [overlay,List.append_assoc,List.length_append,List.length_drop,List.drop_append,List.drop_drop]
  congr 3
  omega

theorem overlay_clean {bytes text : Bytes} (clean : 0 ∉ bytes) (old : 0 ∉ text) : 0 ∉ overlay bytes text := by
  intro zero
  rcases List.mem_append.mp zero with new | left
  · exact clean new
  · exact old (List.mem_of_mem_drop left)

-- write(2) at a file offset; past the end the gap is filled with zero bytes.
def writeAt (file : Bytes) (offset : Nat) (bytes : Bytes) : Bytes :=
  file.take offset ++ List.replicate (offset - file.length) 0 ++ overlay bytes (file.drop offset)

theorem writeAt_zero (file bytes : Bytes) : writeAt file 0 bytes = overlay bytes file := by
  simp [writeAt]

theorem writeAt_nil (inside : offset ≤ file.length) : writeAt file offset [] = file := by
  simp [writeAt,Nat.sub_eq_zero_of_le inside]

theorem writeAt_inside (inside : offset ≤ file.length) (bytes : Bytes) :
    writeAt file offset bytes = file.take offset ++ overlay bytes (file.drop offset) := by
  simp [writeAt,Nat.sub_eq_zero_of_le inside]

theorem writeAt_reaches (inside : offset ≤ file.length) (bytes : Bytes) :
    offset + bytes.length ≤ (writeAt file offset bytes).length := by
  rw [writeAt_inside inside,List.length_append,overlay_length,List.length_take]; omega

theorem writeAt_length (file : Bytes) (offset : Nat) (bytes : Bytes) :
    (writeAt file offset bytes).length = max file.length (max offset (offset + bytes.length)) := by
  simp only [writeAt,List.length_append,List.length_take,List.length_replicate,overlay_length,List.length_drop]
  omega

theorem writeAt_writeAt (inside : offset ≤ file.length) (first second : Bytes) :
    writeAt (writeAt file offset first) (offset + first.length) second = writeAt file offset (first ++ second) := by
  have here : (file.take offset).length = offset := by rw [List.length_take]; omega
  have front : (writeAt file offset first).take (offset + first.length) = file.take offset ++ first := by
    rw [writeAt_inside inside,overlay,← List.append_assoc]
    exact List.take_left' (by rw [List.length_append,here])
  have back : (writeAt file offset first).drop (offset + first.length) = (file.drop offset).drop first.length := by
    rw [writeAt_inside inside,overlay,← List.append_assoc]
    exact List.drop_left' (by rw [List.length_append,here])
  rw [writeAt_inside (writeAt_reaches inside first),front,back,writeAt_inside inside]
  simp [overlay,List.drop_drop,Nat.add_assoc]

-- A stretch of a list replaced from an index on, past its end if need be.
def overwrite (list : List α) (offset : Nat) (stretch : List α) : List α :=
  list.take offset ++ (stretch ++ list.drop (offset + stretch.length))

theorem writeAt_overwrite (inside : offset ≤ file.length) (bytes : Bytes) :
    writeAt file offset bytes = overwrite file offset bytes := by
  rw [writeAt_inside inside,overlay,List.drop_drop,overwrite]

theorem overwrite_length {list : List α} (inside : offset ≤ list.length) (stretch : List α) :
    (overwrite list offset stretch).length = max list.length (offset + stretch.length) := by
  simp only [overwrite,List.length_append,List.length_take,List.length_drop]; omega

theorem overwrite_getElem? {list : List α} (inside : offset ≤ list.length) (stretch : List α) (j : Nat) :
    (overwrite list offset stretch)[j]? =
      if offset ≤ j ∧ j < offset + stretch.length then stretch[j - offset]? else list[j]? := by
  have front : (list.take offset).length = offset := by rw [List.length_take]; omega
  by_cases before : j < offset
  · rw [overwrite,List.getElem?_append_left (by omega),List.getElem?_take_of_lt before,if_neg (by omega)]
  · rw [overwrite,List.getElem?_append_right (by omega),front]
    by_cases within : j < offset + stretch.length
    · rw [List.getElem?_append_left (by omega),if_pos (by omega)]
    · rw [List.getElem?_append_right (by omega),List.getElem?_drop,if_neg (by omega)]
      congr 1; omega

end NetworkEx.ByteStreams
