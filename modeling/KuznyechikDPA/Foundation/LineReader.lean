import Mathlib.Data.List.Basic

/-!
# Readers of fixed-size line commands

A command line is a registered letter, as many argument characters as the letter asks for,
and a line end. A reader attempts one command after the other on a stream; an attempt that
fails before the end of its line leaves the rest of the line to the next attempt, so what a
whole stream is read as is determined line by line, and differs from its command lines
exactly where a rejected line still hides a command.
-/

namespace KuznyechikDPA

universe u v

/-- The registered letters with their numbers of argument characters, and the line ends. -/
structure LineReader (α : Type u) where
  size : α → Option Nat
  isEnd : α → Bool
  size_of_isEnd : ∀ c, isEnd c = true → size c = none

namespace LineReader
variable {α : Type u} (R : LineReader α)

/-! ## Attempts -/

/-- Reads `n` argument characters unless the line ends before; `none` waits for more input. -/
def receive : Nat → List α → Option (Option (List α) × List α)
  | 0, input => some (some [], input)
  | _ + 1, [] => none
  | n + 1, c :: rest =>
    if R.isEnd c then some (none, rest)
    else (receive n rest).map fun (arg, rest) => (arg.map (c :: ·), rest)

/-- One attempt: the command it finds, if any, and what is left of the stream. -/
def attempt : List α → Option (Option (α × List α) × List α)
  | [] => none
  | c :: rest =>
    match R.size c with
    | none => some (none, rest)
    | some n =>
      match R.receive n rest with
      | none => none
      | some (none, rest) => some (none, rest)
      | some (some _, []) => none
      | some (some arg, e :: rest) => some (if R.isEnd e then some (c, arg) else none, rest)

/-- The commands that the first `n` attempts find. -/
def attempts : Nat → List α → List (α × List α)
  | 0, _ => []
  | n + 1, input =>
    match R.attempt input with
    | none => []
    | some (found, rest) => found.toList ++ attempts n rest

/-! ## Lines -/

/-- The lines of a stream, without an unfinished last one. -/
def completeLines : List α → List (List α)
  | [] => []
  | c :: rest =>
    if R.isEnd c then [] :: completeLines rest
    else match completeLines rest with
      | [] => []
      | line :: lines => (c :: line) :: lines

/-- A line that is a command, letter and argument. -/
def lineCommand : List α → Option (α × List α)
  | [] => none
  | c :: arg => if R.size c = some arg.length then some (c, arg) else none

/-- What the attempts on a line find. -/
def lineReads : List α → List (α × List α)
  | [] => []
  | c :: rest =>
    match R.size c with
    | none => lineReads rest
    | some n =>
      if rest.length < n then []
      else if rest.length = n then [(c, rest)]
      else lineReads (rest.drop (n + 1))
termination_by line => line.length
decreasing_by all_goals simp only [List.length_cons, List.length_drop]; omega

/-- What a failed attempt takes from a line whose end it does not reach. -/
def Piece (p : List α) : Prop :=
  (∃ c, R.size c = none ∧ p = [c]) ∨
    ∃ c n rest, R.size c = some n ∧ rest.length = n + 1 ∧ p = c :: rest

/-- A line that ends in a command after some pieces. -/
def Hides (accepts : α × List α → Bool) (line : List α) : Prop :=
  ∃ pieces, pieces ≠ [] ∧ (∀ p ∈ pieces, R.Piece p) ∧
    ∃ rest x, line = pieces.flatten ++ rest ∧ R.lineCommand rest = some x ∧ accepts x = true

/-! ## Attempts line by line -/

section Lines
variable {R}

theorem completeLines_end {c : α} (hc : R.isEnd c = true) (rest : List α) :
    R.completeLines (c :: rest) = [] :: R.completeLines rest := by
  rw [completeLines, if_pos hc]

/-- Characters before the first line end belong to the first line. -/
theorem completeLines_append {part : List α} (hpart : ∀ c ∈ part, R.isEnd c = false) (rest : List α) :
    R.completeLines (part ++ rest) =
      match R.completeLines rest with
      | [] => []
      | line :: lines => (part ++ line) :: lines := by
  induction part with
  | nil =>
    rw [List.nil_append]
    cases R.completeLines rest with
    | nil => rfl
    | cons line lines => rfl
  | cons c part ih =>
    have hc := hpart c List.mem_cons_self
    have htail := ih fun d hd => hpart d (List.mem_cons_of_mem c hd)
    rw [List.cons_append, completeLines, hc, if_neg Bool.false_ne_true, htail]
    cases R.completeLines rest with
    | nil => rfl
    | cons line lines => rfl

theorem receive_cases (n : Nat) (input : List α) :
    (R.receive n input = none ∧ input.length < n ∧ ∀ c ∈ input, R.isEnd c = false) ∨
    (∃ part e rest, R.receive n input = some (none, rest) ∧ input = part ++ e :: rest ∧
      part.length < n ∧ (∀ c ∈ part, R.isEnd c = false) ∧ R.isEnd e = true) ∨
    ∃ arg rest, R.receive n input = some (some arg, rest) ∧ input = arg ++ rest ∧
      arg.length = n ∧ ∀ c ∈ arg, R.isEnd c = false := by
  induction n generalizing input with
  | zero => exact .inr (.inr ⟨[], input, by simp [receive]⟩)
  | succ n ih =>
    cases input with
    | nil => exact .inl ⟨rfl, by simp, by simp⟩
    | cons c input =>
      cases hc : R.isEnd c with
      | true => exact .inr (.inl ⟨[], c, input, by simp [receive, hc]⟩)
      | false =>
        rcases ih input with ⟨hnone, hlen, hpart⟩ | ⟨part, e, rest, hsome, rfl, hlen, hpart, he⟩ |
          ⟨arg, rest, hsome, rfl, hlen, harg⟩
        · exact .inl ⟨by simp [receive, hc, hnone], by simpa using hlen, by simpa [hc] using hpart⟩
        · exact .inr (.inl ⟨c :: part, e, rest, by simp [receive, hc, hsome], rfl, by simpa using hlen,
            by simpa [hc] using hpart, he⟩)
        · exact .inr (.inr ⟨c :: arg, rest, by simp [receive, hc, hsome], rfl, by simpa using hlen,
            by simpa [hc] using harg⟩)

theorem lineReads_unknown {c : α} (hc : R.size c = none) (rest : List α) :
    R.lineReads (c :: rest) = R.lineReads rest := by
  rw [lineReads, hc]

theorem lineReads_short {c : α} {n : Nat} (hc : R.size c = some n) {rest : List α} (h : rest.length < n) :
    R.lineReads (c :: rest) = [] := by
  rw [lineReads, hc]
  simp only [if_pos h]

theorem lineReads_exact {c : α} {n : Nat} (hc : R.size c = some n) {rest : List α} (h : rest.length = n) :
    R.lineReads (c :: rest) = [(c, rest)] := by
  rw [lineReads, hc]
  have hnot : ¬ rest.length < n := by omega
  simp only [if_neg hnot, if_pos h]

theorem lineReads_long {c : α} {n : Nat} (hc : R.size c = some n) {rest : List α} (h : n < rest.length) :
    R.lineReads (c :: rest) = R.lineReads (rest.drop (n + 1)) := by
  rw [lineReads, hc]
  have hshort : ¬ rest.length < n := by omega
  have hexact : ¬ rest.length = n := by omega
  simp only [if_neg hshort, if_neg hexact]

theorem completeLines_unfinished {part : List α} (hpart : ∀ c ∈ part, R.isEnd c = false) :
    R.completeLines part = [] := by
  have happend := completeLines_append hpart []
  rwa [List.append_nil] at happend

theorem completeLines_line {part : List α} (hpart : ∀ c ∈ part, R.isEnd c = false) {e : α}
    (he : R.isEnd e = true) (rest : List α) :
    R.completeLines (part ++ e :: rest) = part :: R.completeLines rest := by
  rw [completeLines_append hpart, completeLines_end he]
  simp only [List.append_nil]

/-- A part that the attempts skip can be taken from its line. -/
theorem reads_skip {p : List α} (hpart : ∀ c ∈ p, R.isEnd c = false)
    (hskip : ∀ line, R.lineReads (p ++ line) = R.lineReads line) (rest : List α) :
    (R.completeLines (p ++ rest)).flatMap R.lineReads =
      (R.completeLines rest).flatMap R.lineReads := by
  rw [completeLines_append hpart]
  cases R.completeLines rest with
  | nil => rfl
  | cons line lines => rw [List.flatMap_cons, List.flatMap_cons, hskip]

theorem isEnd_of_size {c : α} {n : Nat} (hc : R.size c = some n) : R.isEnd c = false := by
  cases h : R.isEnd c with
  | false => rfl
  | true =>
    rw [R.size_of_isEnd c h] at hc
    contradiction

/-- One attempt reads a prefix of the stream, and what is found does not depend on the rest. -/
theorem reads_attempt (input : List α) :
    (R.attempt input = none ∧ (R.completeLines input).flatMap R.lineReads = []) ∨
    ∃ found rest, R.attempt input = some (found, rest) ∧ rest.length < input.length ∧
      (R.completeLines input).flatMap R.lineReads =
        found.toList ++ (R.completeLines rest).flatMap R.lineReads := by
  cases input with
  | nil => exact .inl ⟨rfl, rfl⟩
  | cons c input =>
    cases hc : R.size c with
    | none =>
      refine .inr ⟨none, input, by rw [attempt, hc], by simp, ?_⟩
      cases hend : R.isEnd c with
      | true =>
        rw [completeLines_end hend, List.flatMap_cons, lineReads]
        rfl
      | false =>
        have hskip := reads_skip (R := R) (p := [c]) (by simpa using hend) (lineReads_unknown hc) input
        exact hskip
    | some n =>
      have hcend := isEnd_of_size hc
      rcases receive_cases (R := R) n input with ⟨hnone, -, hpart⟩ | ⟨part, e, rest, hsome, rfl, hlen, hpart, he⟩ |
        ⟨arg, rest, hsome, rfl, hlen, harg⟩
      · refine .inl ⟨by simp [attempt, hc, hnone], ?_⟩
        rw [completeLines_unfinished (by simpa [hcend] using hpart)]
        rfl
      · refine .inr ⟨none, rest, by simp [attempt, hc, hsome], by simp; omega, ?_⟩
        have hfree : ∀ d ∈ c :: part, R.isEnd d = false := by simpa [hcend] using hpart
        have hline := completeLines_line hfree he rest
        rw [List.cons_append] at hline
        rw [hline, List.flatMap_cons, lineReads_short hc hlen]
        rfl
      · have hfree : ∀ d ∈ c :: arg, R.isEnd d = false := by simpa [hcend] using harg
        cases rest with
        | nil =>
          rw [List.append_nil] at hsome ⊢
          refine .inl ⟨by simp [attempt, hc, hsome], ?_⟩
          rw [completeLines_unfinished hfree]
          rfl
        | cons e rest =>
          cases he : R.isEnd e with
          | true =>
            refine .inr ⟨some (c, arg), rest, by simp [attempt, hc, hsome, he], by simp; omega, ?_⟩
            have hline := completeLines_line hfree he rest
            rw [List.cons_append] at hline
            rw [hline, List.flatMap_cons, lineReads_exact hc hlen]
            rfl
          | false =>
            refine .inr ⟨none, rest, by simp [attempt, hc, hsome, he], by simp; omega, ?_⟩
            have hskip := reads_skip (R := R) (p := c :: arg ++ [e]) (fun d hd => ?_) (fun line => ?_) rest
            · simpa using hskip
            · rcases List.mem_append.mp hd with hd | hd
              · exact hfree d hd
              · rwa [List.mem_singleton.mp hd]
            · have hlong : n < (arg ++ e :: line).length := by simp; omega
              have hdrop : (arg ++ e :: line).drop (n + 1) = line := by
                rw [← hlen, List.drop_append]
                simp
              rw [List.append_assoc, List.cons_append, List.singleton_append, lineReads_long hc hlong,
                hdrop]

/-- The attempts on a stream find what they find on its complete lines. -/
theorem attempts_eq (n : Nat) (input : List α) (hn : input.length ≤ n) :
    R.attempts n input = (R.completeLines input).flatMap R.lineReads := by
  induction n generalizing input with
  | zero =>
    have hnil : input = [] := List.length_eq_zero_iff.mp (by omega)
    subst hnil
    rfl
  | succ n ih =>
    rw [attempts]
    rcases reads_attempt (R := R) input with ⟨hnone, hreads⟩ | ⟨found, rest, hsome, hlen, hreads⟩
    · rw [hnone, hreads]
    · rw [hsome, hreads, ← ih rest (by omega)]

end Lines

/-! ## Hidden commands -/

section Hidden
variable {R} {accepts : α × List α → Bool}

theorem lineReads_of_command {line : List α} {x : α × List α} (h : R.lineCommand line = some x) :
    R.lineReads line = [x] := by
  cases line with
  | nil => simp [lineCommand] at h
  | cons c arg =>
    by_cases hc : R.size c = some arg.length
    · rw [lineCommand, if_pos hc, Option.some.injEq] at h
      rw [lineReads_exact hc rfl, h]
    · rw [lineCommand, if_neg hc] at h
      contradiction

theorem lineReads_piece {p : List α} (hp : R.Piece p) (rest : List α) :
    R.lineReads (p ++ rest) = R.lineReads rest := by
  rcases hp with ⟨c, hc, rfl⟩ | ⟨c, n, arg, hc, hlen, rfl⟩
  · exact lineReads_unknown hc rest
  · rw [List.cons_append, lineReads_long hc (by simp; omega), List.drop_append, ← hlen]
    simp

theorem lineReads_pieces {pieces : List (List α)} (hp : ∀ p ∈ pieces, R.Piece p) (rest : List α) :
    R.lineReads (pieces.flatten ++ rest) = R.lineReads rest := by
  induction pieces with
  | nil => rfl
  | cons p pieces ih =>
    rw [List.flatten_cons, List.append_assoc, lineReads_piece (hp p List.mem_cons_self),
      ih fun q hq => hp q (List.mem_cons_of_mem p hq)]

theorem lineCommand_piece {p : List α} (hp : R.Piece p) (rest : List α) :
    R.lineCommand (p ++ rest) = none := by
  rcases hp with ⟨c, hc, rfl⟩ | ⟨c, n, arg, hc, hlen, rfl⟩
  · rw [List.singleton_append, lineCommand, hc, if_neg (by simp)]
  · rw [List.cons_append, lineCommand, hc, if_neg]
    simp only [Option.some.injEq, List.length_append]
    omega

theorem lineCommand_of_hides {line : List α} (h : R.Hides accepts line) : R.lineCommand line = none := by
  obtain ⟨pieces, hne, hp, rest, x, rfl, -, -⟩ := h
  cases pieces with
  | nil => contradiction
  | cons p pieces =>
    rw [List.flatten_cons, List.append_assoc]
    exact lineCommand_piece (hp p List.mem_cons_self) _

/-- Every line is pieces followed by a command, or by a rest that no attempt completes. -/
theorem exists_pieces (line : List α) :
    ∃ pieces : List (List α), (∀ p ∈ pieces, R.Piece p) ∧ ∃ rest, line = pieces.flatten ++ rest ∧
      (R.lineReads rest = [] ∨ ∃ x, R.lineCommand rest = some x) := by
  induction hlen : line.length using Nat.strongRecOn generalizing line with
  | ind len ih =>
    subst hlen
    -- a first piece, and the pieces of the rest
    have hcons (p rest : List α) (hp : R.Piece p) (hline : line = p ++ rest)
        (hshort : rest.length < line.length) : ∃ pieces : List (List α), (∀ p ∈ pieces, R.Piece p) ∧
          ∃ rest, line = pieces.flatten ++ rest ∧
            (R.lineReads rest = [] ∨ ∃ x, R.lineCommand rest = some x) := by
      obtain ⟨pieces, hpieces, rest', hrest, hread⟩ := ih rest.length hshort rest rfl
      refine ⟨p :: pieces, ?_, rest', by rw [hline, hrest, List.flatten_cons, List.append_assoc], hread⟩
      intro q hq
      rcases List.mem_cons.mp hq with rfl | hq
      · exact hp
      · exact hpieces q hq
    cases line with
    | nil => exact ⟨[], by simp, [], rfl, .inl (by rw [lineReads])⟩
    | cons c rest =>
      cases hc : R.size c with
      | none => exact hcons [c] rest (.inl ⟨c, hc, rfl⟩) rfl (by simp)
      | some n =>
        obtain hlt | heq | hgt : rest.length < n ∨ rest.length = n ∨ n < rest.length := by omega
        · exact ⟨[], by simp, c :: rest, rfl, .inl (lineReads_short hc hlt)⟩
        · refine ⟨[], by simp, c :: rest, rfl, .inr ⟨(c, rest), ?_⟩⟩
          rw [lineCommand, hc, if_pos (by rw [heq])]
        · refine hcons (c :: rest.take (n + 1)) (rest.drop (n + 1)) (.inr ⟨c, n, _, hc, ?_, rfl⟩) ?_ ?_
          · rw [List.length_take]
            omega
          · rw [List.cons_append, List.take_append_drop]
          · rw [List.length_drop, List.length_cons]
            omega

theorem hides_of_read {line : List α} (hnone : R.lineCommand line = none) {x : α × List α}
    (hx : x ∈ R.lineReads line) (haccepts : accepts x = true) : R.Hides accepts line := by
  obtain ⟨pieces, hpieces, rest, rfl, hrest⟩ := exists_pieces (R := R) line
  rw [lineReads_pieces hpieces] at hx
  rcases hrest with hempty | ⟨y, hy⟩
  · rw [hempty] at hx
    contradiction
  · rw [lineReads_of_command hy] at hx
    obtain rfl := List.mem_singleton.mp hx
    refine ⟨pieces, ?_, hpieces, rest, x, rfl, hy, haccepts⟩
    rintro rfl
    rw [List.flatten_nil, List.nil_append, hy] at hnone
    contradiction

variable (R accepts) in
/-- A line is read as the command that it is, unless it is none and hides one. -/
theorem lineReads_filter_cases (line : List α) :
    ((R.lineReads line).filter accepts = ((R.lineCommand line).filter accepts).toList ∧
      ¬ R.Hides accepts line) ∨
    ((R.lineCommand line).filter accepts = none ∧ R.Hides accepts line ∧
      ∃ x, (R.lineReads line).filter accepts = [x]) := by
  by_cases hhides : R.Hides accepts line
  · have hnone := lineCommand_of_hides hhides
    refine .inr ⟨by rw [hnone]; rfl, hhides, ?_⟩
    obtain ⟨pieces, -, hp, rest, x, rfl, hx, haccepts⟩ := hhides
    refine ⟨x, ?_⟩
    rw [lineReads_pieces hp, lineReads_of_command hx, List.filter_singleton, haccepts]
    rfl
  · refine .inl ⟨?_, hhides⟩
    cases hcommand : R.lineCommand line with
    | some x =>
      rw [lineReads_of_command hcommand, List.filter_singleton, Option.filter_some]
      cases accepts x with
      | true => rfl
      | false => rfl
    | none =>
      have hnothing : (R.lineReads line).filter accepts = [] := by
        apply List.filter_eq_nil_iff.mpr
        intro x hx haccepts
        exact hhides (hides_of_read hcommand hx haccepts)
      rw [hnothing]
      rfl

section Compare
variable {β : Type u} {γ : Type v} {f g : β → List γ} {H : β → Prop}
variable (hcases : ∀ x, (f x = g x ∧ ¬ H x) ∨ (g x = [] ∧ H x ∧ ∃ y, f x = [y]))
include hcases

theorem length_flatMap_le (xs : List β) : (xs.flatMap g).length ≤ (xs.flatMap f).length := by
  induction xs with
  | nil => exact Nat.le_refl _
  | cons x xs ih =>
    rw [List.flatMap_cons, List.flatMap_cons, List.length_append, List.length_append]
    rcases hcases x with ⟨heq, -⟩ | ⟨hnil, -⟩
    · rw [heq]
      omega
    · rw [hnil, List.length_nil]
      omega

/-- What is read in excess cannot be made up for elsewhere. -/
theorem flatMap_eq_iff (xs : List β) : xs.flatMap f = xs.flatMap g ↔ ∀ x ∈ xs, ¬ H x := by
  induction xs with
  | nil => simp
  | cons x xs ih =>
    rw [List.flatMap_cons, List.flatMap_cons, List.forall_mem_cons, ← ih]
    rcases hcases x with ⟨heq, hnot⟩ | ⟨hnil, hH, y, hone⟩
    · rw [heq, List.append_cancel_left_eq]
      exact ⟨fun h => ⟨hnot, h⟩, fun h => h.2⟩
    · refine ⟨fun h => ?_, fun h => absurd hH h.1⟩
      have hlength := congrArg List.length h
      have hle := length_flatMap_le hcases xs
      rw [hnil, hone, List.length_append, List.length_append, List.length_singleton,
        List.length_nil] at hlength
      omega

end Compare

/-- The lines are read as the command lines among them exactly if none of them hides a command. -/
theorem reads_eq_commands_iff {γ : Type v} (out : α × List α → γ) (lines : List (List α)) :
    (lines.flatMap fun line => ((R.lineReads line).filter accepts).map out) =
        (lines.filterMap fun line => ((R.lineCommand line).filter accepts).map out) ↔
      ∀ line ∈ lines, ¬ R.Hides accepts line := by
  rw [List.filterMap_eq_flatMap_toList]
  apply flatMap_eq_iff
  intro line
  rcases lineReads_filter_cases R accepts line with ⟨heq, hnot⟩ | ⟨hnone, hhides, x, hx⟩
  · refine .inl ⟨?_, hnot⟩
    rw [heq]
    cases (R.lineCommand line).filter accepts with
    | none => rfl
    | some x => rfl
  · exact .inr ⟨by rw [hnone]; rfl, hhides, out x, by rw [hx]; rfl⟩

end Hidden

end LineReader
end KuznyechikDPA
