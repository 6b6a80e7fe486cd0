import NetworkEx.ByteStreams

namespace NetworkEx.HeaderText
open ByteStreams

-- A header block: a first line of two parts, then lines "Name: value", each
-- ended by a line feed, then an empty line.
structure Head where
  version : Bytes
  status : Bytes
  fields : List (Bytes × Bytes)
  deriving DecidableEq

def feed : UInt8 := 10
def space : UInt8 := 32
def colon : UInt8 := 58

def Head.first (head : Head) : Bytes := head.version ++ space :: head.status

def fieldLine (field : Bytes × Bytes) : Bytes := field.1 ++ colon :: space :: field.2

def Head.lines (head : Head) : List Bytes := head.first :: head.fields.map fieldLine

def Head.text (head : Head) : Bytes := [feed].intercalate head.lines ++ [feed,feed]

-- Reading back. The block ends at the first empty line; what follows is left.
def cutBlank : Bytes → Option (Bytes × Bytes)
  | [] => none
  | b :: rest =>
    if b = feed ∧ rest.head? = some feed then some ([],rest.tail)
    else (cutBlank rest).map fun (before,after) => (b :: before,after)

def cutAt (separator : UInt8) : Bytes → Option (Bytes × Bytes)
  | [] => none
  | b :: rest => if b = separator then some ([],rest) else (cutAt separator rest).map fun (before,after) => (b :: before,after)

def readField (line : Bytes) : Option (Bytes × Bytes) := do
  let (name,rest) ← cutAt colon line
  if rest.head? = some space then some (name,rest.tail) else none

def readHead (text : Bytes) : Option (Head × Bytes) := do
  let (block,body) ← cutBlank text
  let lines := block.splitOn feed
  let (version,status) ← cutAt space lines.headI
  let fields ← lines.tail.mapM readField
  return (⟨version,status,fields⟩,body)

def Head.field (head : Head) (name : Bytes) : Option Bytes := head.fields.lookup name

theorem cutAt_clean (clean : separator ∉ before) (after : Bytes) :
    cutAt separator (before ++ separator :: after) = some (before,after) := by
  induction before with
  | nil => simp [cutAt]
  | cons b before ih =>
    obtain ⟨other,rest⟩ := not_or.mp (fun h => clean (List.mem_cons.mpr h))
    simp [cutAt,Ne.symm other,ih rest]

theorem cutBlank_line (clean : feed ∉ line) (more : Bytes) :
    cutBlank (line ++ more) = (cutBlank more).map fun (before,after) => (line ++ before,after) := by
  induction line with
  | nil => simp
  | cons b line ih =>
    obtain ⟨other,rest⟩ := not_or.mp (fun h => clean (List.mem_cons.mpr h))
    rw [List.cons_append,cutBlank,if_neg (fun both => other both.1.symm),ih rest,Option.map_map]
    rfl

theorem cutBlank_lines (lines : List Bytes) (clean : ∀ line ∈ first :: lines, line ≠ [] ∧ feed ∉ line) (body : Bytes) :
    cutBlank ([feed].intercalate (first :: lines) ++ feed :: feed :: body) =
      some ([feed].intercalate (first :: lines),body) := by
  induction lines generalizing first with
  | nil =>
    rw [List.intercalate_singleton,cutBlank_line (clean first List.mem_cons_self).2]
    simp [cutBlank]
  | cons second lines ih =>
    have later := ih (fun line member => clean line (List.mem_cons_of_mem _ member))
    have more : ([feed].intercalate (second :: lines) ++ feed :: feed :: body).head? ≠ some feed := by
      obtain ⟨nonempty,free⟩ := clean second (by simp)
      obtain ⟨b,rest,rfl⟩ := List.exists_cons_of_ne_nil nonempty
      have other : b ≠ feed := fun same => free (by simp [same])
      cases lines <;> simp [List.intercalate_cons_cons,other]
    rw [List.intercalate_cons_cons,List.append_assoc,List.append_assoc,
      cutBlank_line (clean first List.mem_cons_self).2,List.singleton_append,cutBlank,
      if_neg (fun both => more both.2),later]
    simp

theorem readField_fieldLine (clean : colon ∉ field.1) : readField (fieldLine field) = some field := by
  simp [readField,fieldLine,cutAt_clean clean]

theorem readFields (fields : List (Bytes × Bytes)) (clean : ∀ field ∈ fields, colon ∉ field.1) :
    (fields.map fieldLine).mapM readField = some fields := by
  induction fields with
  | nil => rfl
  | cons field fields ih =>
    rw [List.map_cons,List.mapM_cons,readField_fieldLine (clean field List.mem_cons_self),
      ih (fun other member => clean other (List.mem_cons_of_mem _ member))]
    rfl

-- Parts that cannot be mistaken for their separators.
structure Head.Clean (head : Head) : Prop where
  version : space ∉ head.version ∧ feed ∉ head.version
  status : feed ∉ head.status
  names : ∀ field ∈ head.fields, colon ∉ field.1
  values : ∀ field ∈ head.fields, feed ∉ field.1 ∧ feed ∉ field.2

theorem clean_lines (clean : Head.Clean head) : ∀ line ∈ head.lines, line ≠ [] ∧ feed ∉ line := by
  have separators : feed ≠ space ∧ feed ≠ colon := by decide
  intro line member
  rcases List.mem_cons.mp member with rfl | member
  · simp [Head.first,clean.version.2,clean.status,separators]
  · obtain ⟨field,known,rfl⟩ := List.mem_map.mp member
    simp [fieldLine,clean.values field known,separators]

theorem readHead_text (clean : Head.Clean head) (body : Bytes) : readHead (head.text ++ body) = some (head,body) := by
  have lines := clean_lines clean
  have block : cutBlank (head.text ++ body) = some ([feed].intercalate head.lines,body) := by
    rw [Head.text,List.append_assoc]
    exact cutBlank_lines _ lines body
  have split : ([feed].intercalate head.lines).splitOn feed = head.lines :=
    List.splitOn_intercalate feed (fun line member => (lines line member).2) (by simp [Head.lines])
  have first : cutAt space head.first = some (head.version,head.status) := cutAt_clean clean.version.1 head.status
  have fields := readFields head.fields clean.names
  simp only [readHead,block,split,Option.bind_eq_bind,Option.bind_some]
  simp only [Head.lines,List.headI_cons,List.tail_cons,first,fields,Option.bind_some]
  rfl

theorem splitOn_free (separator : UInt8) (text : Bytes) : ∀ line ∈ text.splitOn separator, separator ∉ line := by
  induction text with
  | nil => simp
  | cons b text ih =>
    rw [List.splitOn_cons_eq_if_modifyHead]
    split
    · intro line member
      rcases List.mem_cons.mp member with rfl | later
      · exact List.not_mem_nil
      · exact ih line later
    · rename_i other
      cases lines : text.splitOn separator with
      | nil => exact absurd lines (List.splitOn_ne_nil _ _)
      | cons first rest =>
        rw [lines] at ih
        intro line member
        rcases List.mem_cons.mp member with rfl | later
        · have free := ih first List.mem_cons_self
          have different : separator ≠ b := fun same => other (by simp [same])
          simp [free,different]
        · exact ih line (List.mem_cons_of_mem _ later)

theorem cutAt_parts (cut : cutAt separator text = some (before,after)) : text = before ++ separator :: after := by
  induction text generalizing before with
  | nil => cases cut
  | cons b text ih =>
    unfold cutAt at cut
    split at cut
    · rename_i same; cases cut; rw [same]; rfl
    · obtain ⟨⟨front,_⟩,inner,result⟩ := Option.map_eq_some_iff.mp cut
      cases result
      rw [ih inner]; rfl

theorem readHead_status (read : readHead text = some (head,body)) : feed ∉ head.status := by
  simp only [readHead,Option.bind_eq_bind,Option.bind_eq_some_iff] at read
  obtain ⟨⟨block,_⟩,_,⟨version,status⟩,first,fields,_,result⟩ := read
  cases result
  obtain ⟨line,lines,split⟩ := List.exists_cons_of_ne_nil (List.splitOn_ne_nil feed block)
  have free := splitOn_free feed block line (by simp [split])
  rw [split,List.headI_cons] at first
  rw [cutAt_parts first] at free
  exact fun inside => free (by simp [inside])

end NetworkEx.HeaderText
