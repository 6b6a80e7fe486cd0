import NetworkEx.ByteStreams

namespace NetworkEx.PathResolution
open ByteStreams

def slash : UInt8 := 47
def dot : UInt8 := 46
def parent : Bytes := [dot,dot]

-- The names of a path. Repeated slashes and '.' name nothing.
def components (path : Bytes) : List Bytes :=
  (path.splitOn slash).filter fun name => decide (name ≠ [] ∧ name ≠ [dot])

-- Where a path leads by its text alone: from the root or, after some steps up,
-- from the working directory. The names are innermost first.
structure Location where
  absolute : Bool
  ups : Nat
  names : List Bytes
  deriving DecidableEq

def Location.enter (place : Location) (name : Bytes) : Location :=
  if name = parent then
    match place.names with
    | [] => if place.absolute then place else {place with ups := place.ups + 1}
    | _ :: outer => {place with names := outer}
  else {place with names := name :: place.names}

def resolve (path : Bytes) : Location :=
  (components path).foldl Location.enter ⟨decide (path.head? = some slash),0,[]⟩

-- The base itself or a place under it.
def Below (base place : Location) : Prop :=
  place.absolute = base.absolute ∧ place.ups = base.ups ∧ base.names <:+ place.names

instance (base place : Location) : Decidable (Below base place) := inferInstanceAs (Decidable (_ ∧ _ ∧ _))

-- Names that, starting `depth` deep, never go further up than that.
def inward : Nat → List Bytes → Bool
  | _,[] => true
  | depth,name :: rest =>
    if name = parent then
      match depth with
      | 0 => false
      | depth+1 => inward depth rest
    else inward (depth+1) rest

theorem components_append (first second : Bytes) :
    components (first ++ slash :: second) = components first ++ components second := by
  rw [components,List.splitOn_append_cons_self,List.filter_append,components,components]

theorem components_nil : components [] = [] := rfl

theorem resolve_append (first second : Bytes) :
    resolve (first ++ slash :: second) =
      (components second).foldl Location.enter (resolve (first ++ [slash])) := by
  have head : (first ++ slash :: second).head? = (first ++ [slash]).head? := by cases first <;> rfl
  rw [resolve,resolve,components_append,components_append,components_nil,List.append_nil,List.foldl_append,head]

theorem enter_parent_some (inside : place.names = name :: outer) :
    Location.enter place parent = {place with names := outer} := by
  simp [Location.enter,inside]

theorem enter_name (other : name ≠ parent) :
    Location.enter place name = {place with names := name :: place.names} := if_neg other

theorem inward_stays {place : Location} (upper : List Bytes) (inside : inward upper.length names = true)
    (here : place.names = upper ++ base.names) (absolute : place.absolute = base.absolute) (ups : place.ups = base.ups) :
    Below base (names.foldl Location.enter place) := by
  induction names generalizing place upper with
  | nil => exact ⟨absolute,ups,⟨upper,here.symm⟩⟩
  | cons name rest ih =>
    rw [List.foldl_cons]
    by_cases up : name = parent
    · subst up
      cases upper with
      | nil => simp [inward] at inside
      | cons inner upper =>
        have deeper : place.names = inner :: (upper ++ base.names) := here
        rw [enter_parent_some deeper]
        exact ih upper (by simpa [inward] using inside) rfl absolute ups
    · rw [enter_name up]
      exact ih (name :: upper) (by simpa [inward,up] using inside) (by rw [here]; rfl) absolute ups

theorem inward_under (upper : List Bytes) (inside : inward upper.length names = true) :
    names.foldl Location.enter ⟨absolute,ups,upper ++ base⟩ =
      ⟨absolute,ups,(names.foldl Location.enter ⟨free,none_,upper⟩).names ++ base⟩ := by
  induction names generalizing upper with
  | nil => rfl
  | cons name rest ih =>
    rw [List.foldl_cons,List.foldl_cons]
    by_cases up : name = parent
    · subst up
      cases upper with
      | nil => simp [inward] at inside
      | cons inner upper =>
        exact ih upper (by simpa [inward] using inside)
    · rw [enter_name up,enter_name up]
      exact ih (name :: upper) (by simpa [inward,up] using inside)

theorem absent_stays {place : Location} {names : List Bytes} (fresh : name ∉ place.names) (unspelled : name ∉ names) :
    name ∉ (names.foldl Location.enter place).names := by
  induction names generalizing place with
  | nil => exact fresh
  | cons other rest ih =>
    obtain ⟨different,later⟩ := not_or.mp (fun h => unspelled (List.mem_cons.mpr h))
    refine ih ?_ later
    by_cases up : other = parent
    · subst up
      unfold Location.enter
      rw [if_pos rfl]
      split
      · split <;> exact fresh
      · rename_i inner outer here
        rw [here] at fresh
        exact fun inside => fresh (List.mem_cons_of_mem _ inside)
    · rw [enter_name up]
      exact fun inside => (List.mem_cons.mp inside).elim different fresh

theorem outward_leaves {place : Location} (upper : List Bytes) (outside : inward upper.length names = false)
    (here : place.names = upper ++ [name]) (fresh : name ∉ upper) (unspelled : name ∉ names) :
    name ∉ (names.foldl Location.enter place).names := by
  induction names generalizing place upper with
  | nil => simp [inward] at outside
  | cons other rest ih =>
    obtain ⟨different,later⟩ := not_or.mp (fun h => unspelled (List.mem_cons.mpr h))
    rw [List.foldl_cons]
    by_cases up : other = parent
    · subst up
      cases upper with
      | nil =>
        rw [enter_parent_some here]
        exact absent_stays (by simp) later
      | cons inner upper =>
        have deeper : place.names = inner :: (upper ++ [name]) := here
        rw [enter_parent_some deeper]
        exact ih upper (by simpa [inward] using outside) rfl (fun inside => fresh (List.mem_cons_of_mem _ inside)) later
    · rw [enter_name up]
      refine ih (other :: upper) (by simpa [inward,up] using outside) (by rw [here]; rfl) ?_ later
      exact fun inside => (List.mem_cons.mp inside).elim different fresh

theorem splitOn_prepend (clean : slash ∉ first) (second : Bytes) :
    (first ++ second).splitOn slash = (second.splitOn slash).modifyHead (first ++ ·) := by
  induction first with
  | nil => rw [List.nil_append]; cases second.splitOn slash <;> rfl
  | cons b first ih =>
    obtain ⟨other,rest⟩ := not_or.mp (fun h => clean (List.mem_cons.mpr h))
    rw [List.cons_append,List.splitOn_cons_eq_if_modifyHead,if_neg (by simpa using Ne.symm other),ih rest,List.modifyHead_modifyHead]
    rfl

theorem splitOn_length {path name : Bytes} (member : name ∈ path.splitOn slash) : name.length ≤ path.length := by
  induction path generalizing name with
  | nil => simp [List.mem_singleton.mp member]
  | cons b path ih =>
    rw [List.splitOn_cons_eq_if_modifyHead] at member
    split at member
    · rcases List.mem_cons.mp member with rfl | later
      · exact Nat.zero_le _
      · exact Nat.le_succ_of_le (ih later)
    · obtain ⟨first,rest,parts⟩ := List.exists_cons_of_ne_nil (List.splitOn_ne_nil slash path)
      rw [parts,List.modifyHead_cons] at member
      rcases List.mem_cons.mp member with rfl | later
      · exact Nat.succ_le_succ (ih (by rw [parts]; exact List.mem_cons_self))
      · exact Nat.le_succ_of_le (ih (by rw [parts]; exact List.mem_cons_of_mem _ later))

-- A path is confined to a root directory that is given as text.
def Confined (root path : Bytes) : Prop := path = root ∨ Below (resolve (root ++ [slash])) (resolve path)

instance (root path : Bytes) : Decidable (Confined root path) := inferInstanceAs (Decidable (_ ∨ _))

-- Text that leads to no other place when it is appended to a root: nothing, or
-- a path from there that never climbs over its start.
def Inside (text : Bytes) : Prop := text = [] ∨ ∃ rest, text = slash :: rest ∧ inward 0 (components rest) = true

theorem inside_confined (inside : Inside text) (root : Bytes) : Confined root (root ++ text) := by
  rcases inside with rfl | ⟨rest,rfl,stays⟩
  · exact .inl (List.append_nil root)
  · refine .inr ?_
    rw [resolve_append root rest]
    exact inward_stays [] stays rfl rfl rfl

theorem component_length (member : name ∈ components path) : name.length ≤ path.length :=
  splitOn_length (List.mem_of_mem_filter member)

-- A name longer than the text, so that nothing in the text spells it.
def freshName (text : Bytes) : Bytes := List.replicate (text.length + 1) 97

def freshRoot (text : Bytes) : Bytes := slash :: freshName text

theorem freshName_clean (text : Bytes) : slash ∉ freshName text := by
  simp [freshName,slash]

theorem freshName_other (text : Bytes) : freshName text ≠ parent := by
  intro same
  have first := congrArg List.head? same
  rw [freshName,List.replicate_succ] at first
  cases first

theorem freshName_unspelled (short : path.length ≤ text.length) : freshName text ∉ components path := by
  intro member
  have length := component_length member
  rw [freshName,List.length_replicate] at length
  omega

theorem freshName_component (text : Bytes) : components (freshName text) = [freshName text] := by
  rw [components,List.splitOn_eq_singleton (freshName_clean text)]
  have other : freshName text ≠ [dot] := by
    intro same
    have first := congrArg List.head? same
    rw [freshName,List.replicate_succ] at first
    cases first
  have some : freshName text ≠ [] := by simp [freshName]
  simp [other,some]

theorem freshRoot_place (text : Bytes) : resolve (freshRoot text ++ [slash]) = ⟨true,0,[freshName text]⟩ := by
  have path : freshRoot text ++ [slash] = [] ++ slash :: (freshName text ++ slash :: []) := rfl
  have start : resolve ([] ++ [slash]) = ⟨true,0,[]⟩ := by decide
  rw [path,resolve_append,components_append,freshName_component,components_nil,start]
  exact enter_name (freshName_other text)

theorem below_named (below : Below ⟨true,0,[name]⟩ place) : name ∈ place.names :=
  below.2.2.subset List.mem_cons_self

-- Text that follows the fresh name without a slash makes another name of it.
theorem freshName_joined (nonempty : text ≠ []) (first : text.head? ≠ some slash) :
    freshName text ∉ components (freshName text ++ text) := by
  intro member
  have member := List.mem_of_mem_filter member
  rw [splitOn_prepend (freshName_clean text)] at member
  obtain ⟨b,rest,rfl⟩ := List.exists_cons_of_ne_nil nonempty
  obtain ⟨inner,later,parts⟩ := List.exists_cons_of_ne_nil (List.splitOn_ne_nil slash rest)
  have other : (b == slash) = false := by
    have different : b ≠ slash := fun same => first (by rw [same]; rfl)
    simpa using different
  have split : (b :: rest).splitOn slash = (b :: inner) :: later := by
    rw [List.splitOn_cons_eq_if_modifyHead,other,parts]; rfl
  rw [split,List.modifyHead_cons] at member
  rcases List.mem_cons.mp member with same | later
  · have length := congrArg List.length same
    rw [List.length_append,List.length_cons] at length
    omega
  · have length := splitOn_length (by rw [split]; exact List.mem_cons_of_mem _ later)
    rw [freshName,List.length_replicate] at length
    omega

theorem outside_escapes (outside : ¬ Inside text) : ¬ Confined (freshRoot text) (freshRoot text ++ text) := by
  obtain ⟨nonempty,climbs⟩ := not_or.mp outside
  intro within
  rcases within with same | below
  · exact nonempty (List.append_right_eq_self.mp same)
  rw [freshRoot_place] at below
  refine absurd (below_named below) ?_
  by_cases first : text.head? = some slash
  · obtain ⟨b,rest,rfl⟩ := List.exists_cons_of_ne_nil nonempty
    cases first
    have outward : inward 0 (components rest) = false := by
      simpa using fun stays => climbs ⟨rest,rfl,stays⟩
    rw [resolve_append (freshRoot (slash :: rest)) rest,freshRoot_place]
    exact outward_leaves [] outward rfl (by simp) (freshName_unspelled (Nat.le_succ _))
  · have path : freshRoot text ++ text = [] ++ slash :: (freshName text ++ text) := rfl
    have start : (resolve ([] ++ [slash])).names = [] := by decide
    rw [path,resolve_append]
    exact absent_stays (by rw [start]; simp) (freshName_joined nonempty first)

end NetworkEx.PathResolution
