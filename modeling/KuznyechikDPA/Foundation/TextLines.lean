import Mathlib.Data.List.Basic

/-!
# Lines of a text

A line ends with its newline character, which belongs to it; the last line may lack one.
-/

namespace KuznyechikDPA

def readlines : List Char → List (List Char)
  | [] => []
  | c :: rest =>
    if c = '\n' then [c] :: readlines rest
    else match readlines rest with
      | [] => [[c]]
      | line :: lines => (c :: line) :: lines

theorem readlines_line {line : List Char} (h : '\n' ∉ line) (rest : List Char) :
    readlines (line ++ '\n' :: rest) = (line ++ ['\n']) :: readlines rest := by
  induction line with
  | nil => rfl
  | cons c line ih =>
    obtain ⟨hc, hline⟩ := not_or.mp (mt List.mem_cons.mpr h)
    rw [List.cons_append, readlines, if_neg (Ne.symm hc), ih hline]
    rfl

/-- A text made of complete lines is cut into these lines. -/
theorem readlines_flatMap {α : Type} {line : α → List Char} (h : ∀ a, '\n' ∉ line a) (l : List α) :
    readlines (l.flatMap fun a => line a ++ ['\n']) = l.map fun a => line a ++ ['\n'] := by
  induction l with
  | nil => rfl
  | cons a l ih =>
    rw [List.flatMap_cons, List.append_assoc, List.singleton_append, readlines_line (h a), ih]
    rfl

end KuznyechikDPA
