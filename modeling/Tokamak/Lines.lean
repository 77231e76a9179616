import Mathlib.Data.List.Basic

/-! Text in lines. A text is a list of characters, and every line of it is ended by a separator; the last
one may be ended by the end of the text instead. Reading gives back what was written, line by line, as
long as no line holds a separator. -/

namespace Lines

universe u

variable {α : Type u} [DecidableEq α] (sep : α)

/-- The lines of a text. -/
def lines : List α → List (List α)
  | [] => []
  | a :: rest =>
      if a = sep then [] :: lines rest
      else
        match lines rest with
        | [] => [[a]]
        | line :: more => (a :: line) :: more

/-- The text of some lines. -/
def unlines (items : List (List α)) : List α := items.flatMap fun line => line ++ [sep]

variable {sep}

/-- The first line ends at the first separator. -/
theorem lines_line {line : List α} (hline : sep ∉ line) (rest : List α) :
    lines sep (line ++ sep :: rest) = line :: lines sep rest := by
  induction line with
  | nil => rw [List.nil_append, lines, if_pos rfl]
  | cons a line ih =>
      rw [List.mem_cons, not_or] at hline
      rw [List.cons_append, lines, if_neg (fun h => hline.1 h.symm), ih hline.2]

omit [DecidableEq α] in
theorem unlines_cons (line : List α) (items : List (List α)) :
    unlines sep (line :: items) = line ++ sep :: unlines sep items := by
  unfold unlines
  rw [List.flatMap_cons, List.append_assoc]
  rfl

omit [DecidableEq α] in
theorem unlines_append (front back : List (List α)) :
    unlines sep (front ++ back) = unlines sep front ++ unlines sep back := List.flatMap_append

/-- **Lines are read back as they were written.** -/
theorem lines_unlines {items : List (List α)} (h : ∀ line ∈ items, sep ∉ line) :
    lines sep (unlines sep items) = items := by
  induction items with
  | nil => rfl
  | cons line items ih =>
      rw [unlines_cons, lines_line (h line List.mem_cons_self),
        ih (fun other hother => h other (List.mem_cons_of_mem line hother))]

end Lines
