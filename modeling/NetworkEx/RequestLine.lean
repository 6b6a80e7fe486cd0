import NetworkEx.RequestTokens

namespace NetworkEx.RequestLine
open ByteStreams CText TokenText WebServer WebTokens RequestTokens

def inLine (b : UInt8) : Bool := decide (b ≠ 13 ∧ b ≠ 10)

def firstLine (text : Bytes) : Bytes := text.takeWhile inLine

def headerLines (text : Bytes) : Bytes := text.dropWhile inLine

-- The zeroed request is left with the tokens of the request line, and with
-- empty texts where that has none.
def LineOnly (text tail : Bytes) : Prop :=
  protocolParser (text ++ 0 :: tail) ⟨[],[],[]⟩ = some (stored (runs separates (firstLine text)) ⟨[],[],[]⟩)

-- The line end is a delimiter like the blank, so the header lines go on where
-- the request line stops.
theorem runs_lines (text : Bytes) :
    runs separates text = runs separates (firstLine text) ++ runs separates (headerLines text) := by
  rcases first_failing inLine text with ⟨all,nothing⟩ | ⟨front,b,rest,whole,_,fails,line,behind⟩
  · have alone : firstLine text = text := List.takeWhile_eq_self_iff.mpr all
    rw [alone,headerLines,nothing]
    exact (List.append_nil _).symm
  · have delimits : separates b = true := by
      have which : b = 13 ∨ b = 10 := by
        by_contra other
        exact (of_decide_eq_false fails) (not_or.mp other)
      rcases which with rfl | rfl <;> decide
    have broken := runs_break front delimits rest
    have later := runs_break [] delimits rest
    rw [firstLine,headerLines,line,behind,whole,broken]
    exact congrArg _ later.symm

theorem runs_present (text : Bytes) : ∀ run ∈ runs separates text, run ≠ [] := by
  intro run member empty
  have kept := (List.mem_filter.mp member).2
  rw [empty] at kept
  cases kept

theorem stored_inj {some other : List Bytes} (same : stored some ⟨[],[],[]⟩ = stored other ⟨[],[],[]⟩) (inside : i < 3) :
    some.getD i [] = other.getD i [] := by
  simp only [stored,UserRequest.mk.injEq] at same
  have which : i = 0 ∨ i = 1 ∨ i = 2 := by omega
  rcases which with rfl | rfl | rfl
  · exact same.1
  · exact same.2.1
  · exact same.2.2

-- Either the request line has its three tokens, or nothing follows that could
-- stand in for them.
theorem stored_lines (line later : List Bytes) (present : ∀ run ∈ later, run ≠ []) :
    stored (line ++ later) ⟨[],[],[]⟩ = stored line ⟨[],[],[]⟩ ↔ 3 ≤ line.length ∨ later = [] := by
  constructor
  · intro same
    by_contra neither
    obtain ⟨short,some⟩ := not_or.mp neither
    obtain ⟨run,more,rfl⟩ := List.exists_cons_of_ne_nil some
    have taken := stored_inj same (show line.length < 3 by omega)
    rw [List.getD_eq_getElem?_getD,List.getD_eq_getElem?_getD,List.getElem?_append_right (Nat.le_refl _),Nat.sub_self,
      List.getElem?_eq_none (Nat.le_refl _)] at taken
    exact present run List.mem_cons_self taken
  · intro either
    rcases either with three | rfl
    · rw [← stored_take,List.take_append_of_le_length three,stored_take]
    · rw [List.append_nil]

theorem line_only_exact {text : Bytes} (clean : 0 ∉ text) (tail : Bytes) :
    LineOnly text tail ↔ Fitting (runs separates text) ∧
      (3 ≤ (runs separates (firstLine text)).length ∨ runs separates (headerLines text) = []) := by
  rw [LineOnly,parser_fill clean,fill_exact,fitting_take,← stored_lines _ _ (runs_present (headerLines text)),← runs_lines]
  refine and_congr_right fun _ => ?_
  have same : requestOf ((runs separates text).take 3) = stored (runs separates text) ⟨[],[],[]⟩ :=
    stored_take (runs separates text) ⟨[],[],[]⟩
  rw [same]

theorem line_only_get : LineOnly (ascii "GET / HTTP/1.0\r\nHost: x\r\n\r\n") [] :=
  (line_only_exact (by decide) []).mpr ⟨⟨by decide +kernel,by decide +kernel,by decide +kernel⟩,.inl (by decide +kernel)⟩

theorem header_taken : ¬ LineOnly (ascii "GET /\r\nHost: x\r\n\r\n") [] ∧
    protocolParser (ascii "GET /\r\nHost: x\r\n\r\n" ++ 0 :: []) ⟨[],[],[]⟩ =
      some ⟨ascii "GET",ascii "/",ascii "Host:"⟩ := by
  unfold LineOnly
  constructor <;> decide +kernel

end NetworkEx.RequestLine
