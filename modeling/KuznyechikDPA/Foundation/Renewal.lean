import Mathlib.Data.List.Basic

/-!
# Processes that come to rest after every job

A process at rest takes a job when it is started, answers it `latency` instants later and
then comes to rest again. Every start of such a run is answered once, in order, and there
are no other answers.
-/

namespace KuznyechikDPA

universe u

/-- No job is started before the last one is over. -/
structure Renewal (latency : Nat) (rests start answers : Nat → Prop) : Prop where
  pos : 0 < latency
  silent : ∀ t, rests t → ¬ answers t
  wait : ∀ t, rests t → ¬ start t → rests (t + 1)
  job : ∀ t, rests t → start t → ∃ d, latency < d ∧ rests (t + d) ∧
    ∀ k, 0 < k → k < d → ¬ start (t + k) ∧ (answers (t + k) ↔ k = latency)

namespace Renewal
variable {latency : Nat} {rests start answers : Nat → Prop} (h : Renewal latency rests start answers)
include h

theorem answers_from {a : Nat} (ha : rests a) (n : Nat) :
    answers (a + n) ↔ ∃ k, k + latency = n ∧ start (a + k) := by
  have hpos := h.pos
  induction n using Nat.strongRecOn generalizing a with
  | ind n ih =>
    by_cases hstart : start a
    · obtain ⟨d, hd, hrest, hbusy⟩ := h.job a ha hstart
      obtain rfl | ⟨hn, hnd⟩ | hdn : n = 0 ∨ (0 < n ∧ n < d) ∨ d ≤ n := by omega
      · refine ⟨fun hans => absurd hans (h.silent a ha), ?_⟩
        rintro ⟨k, hk, -⟩
        omega
      · -- during the job only its own start can be answered
        rw [(hbusy n hn hnd).2]
        constructor
        · intro heq
          exact ⟨0, by omega, hstart⟩
        · rintro ⟨k, hk, hstarted⟩
          by_contra hne
          exact (hbusy k (by omega) (by omega)).1 hstarted
      · obtain ⟨m, rfl⟩ := Nat.exists_eq_add_of_le hdn
        have hlater : answers (a + d + m) ↔ ∃ k, k + latency = m ∧ start (a + d + k) :=
          ih m (by omega) hrest
        rw [← Nat.add_assoc, hlater]
        constructor
        · rintro ⟨k, hk, hstarted⟩
          exact ⟨d + k, by omega, by rwa [← Nat.add_assoc]⟩
        · rintro ⟨k, hk, hstarted⟩
          have hlate : d ≤ k := by
            by_contra hlt
            exact (hbusy k (by omega) (by omega)).1 hstarted
          obtain ⟨j, rfl⟩ := Nat.exists_eq_add_of_le hlate
          exact ⟨j, by omega, by rwa [Nat.add_assoc]⟩
    · rcases n with _ | n
      · refine ⟨fun hans => absurd hans (h.silent a ha), ?_⟩
        rintro ⟨k, hk, -⟩
        omega
      · have hpos' : a + (n + 1) = a + 1 + n := by omega
        have hlater : answers (a + 1 + n) ↔ ∃ k, k + latency = n ∧ start (a + 1 + k) :=
          ih n (Nat.lt_succ_self n) (h.wait a ha hstart)
        rw [hpos', hlater]
        constructor
        · rintro ⟨k, hk, hstarted⟩
          exact ⟨k + 1, by omega, by rwa [Nat.add_comm k 1, ← Nat.add_assoc]⟩
        · rintro ⟨k, hk, hstarted⟩
          rcases k with _ | k
          · exact absurd hstarted hstart
          · exact ⟨k, by omega, by rwa [Nat.add_comm k 1, ← Nat.add_assoc] at hstarted⟩

theorem rests_of_start {a : Nat} (ha : rests a) (n : Nat) (hstart : start (a + n)) : rests (a + n) := by
  induction n using Nat.strongRecOn generalizing a with
  | ind n ih =>
    rcases n with _ | n
    · exact ha
    by_cases hfirst : start a
    · obtain ⟨d, hd, hrest, hbusy⟩ := h.job a ha hfirst
      have hlate : d ≤ n + 1 := by
        by_contra hlt
        exact (hbusy (n + 1) (by omega) (by omega)).1 hstart
      obtain ⟨m, hm⟩ := Nat.exists_eq_add_of_le hlate
      rw [hm, ← Nat.add_assoc] at hstart ⊢
      exact ih m (by omega) hrest hstart
    · have hpos : a + (n + 1) = a + 1 + n := by omega
      rw [hpos] at hstart ⊢
      exact ih n (Nat.lt_succ_self n) (h.wait a ha hfirst) hstart

theorem answers_iff (h0 : rests 0) (t : Nat) : answers t ↔ ∃ k, k + latency = t ∧ start k := by
  have hfrom := h.answers_from h0 t
  simpa only [Nat.zero_add] using hfrom

end Renewal

/-! ## Marked values -/

section Marked
variable {α : Type u}

/-- The values at the marked instants before `n`. -/
def marked (mark : Nat → Bool) (value : Nat → α) (n : Nat) : List α :=
  (List.range n).flatMap fun t => if mark t then [value t] else []

theorem marked_succ (mark : Nat → Bool) (value : Nat → α) (n : Nat) :
    marked mark value (n + 1) = marked mark value n ++ if mark n then [value n] else [] := by
  rw [marked, List.range_succ, List.flatMap_append, List.flatMap_singleton]
  rfl

theorem marked_nil {mark : Nat → Bool} {value : Nat → α} {n : Nat} (h : ∀ t < n, mark t = false) :
    marked mark value n = [] := by
  induction n with
  | zero => rfl
  | succ n ih =>
    rw [marked_succ, ih fun t ht => h t (by omega), h n (Nat.lt_succ_self n)]
    rfl

/-- Marks that come `latency` later with the same values give the same list later. -/
theorem marked_shift {latency : Nat} {mark mark' : Nat → Bool} {value value' : Nat → α}
    (hmark : ∀ t, mark' t = true ↔ ∃ k, k + latency = t ∧ mark k = true)
    (hvalue : ∀ t, mark t = true → value' (t + latency) = value t) (n : Nat) :
    marked mark' value' (n + latency) = marked mark value n := by
  induction n with
  | zero =>
    rw [Nat.zero_add]
    apply marked_nil
    intro t ht
    by_contra hon
    obtain ⟨k, hk, -⟩ := (hmark t).mp (Bool.of_not_eq_false hon)
    omega
  | succ n ih =>
    have hsame : mark' (n + latency) = mark n := by
      rw [Bool.eq_iff_iff, hmark]
      constructor
      · rintro ⟨k, hk, hon⟩
        rwa [Nat.add_right_cancel hk] at hon
      · exact fun hon => ⟨n, rfl, hon⟩
    rw [Nat.add_right_comm, marked_succ, marked_succ, ih, hsame]
    split_ifs with hon
    · rw [hvalue n hon]
    · rfl

end Marked

/-! ## Values collected between rests -/

section Collected
variable {α : Type u}

/-- What comes in the `n` instants from `a` on. -/
def collected (f : Nat → List α) (a n : Nat) : List α := (List.range n).flatMap fun k => f (a + k)

theorem collected_succ (f : Nat → List α) (a n : Nat) :
    collected f a (n + 1) = collected f a n ++ f (a + n) := by
  rw [collected, List.range_succ, List.flatMap_append, List.flatMap_singleton]
  rfl

theorem collected_one (f : Nat → List α) (a : Nat) : collected f a 1 = f a := by
  rw [collected_succ, Nat.add_zero]
  rfl

theorem collected_add (f : Nat → List α) (a m n : Nat) :
    collected f a (m + n) = collected f a m ++ collected f (a + m) n := by
  induction n with
  | zero => exact (List.append_nil _).symm
  | succ n ih => rw [← Nat.add_assoc, collected_succ, collected_succ, ih, List.append_assoc, Nat.add_assoc]

theorem collected_nil {f : Nat → List α} {a n : Nat} (h : ∀ k < n, f (a + k) = []) :
    collected f a n = [] :=
  List.flatMap_eq_nil_iff.mpr fun k hk => h k (List.mem_range.mp hk)

/-- Where the last value comes. -/
theorem collected_last {f : Nat → List α} {a : Nat} (hone : ∀ k, (f k).length ≤ 1) {xs : List α} {x : α} :
    ∀ {n : Nat}, collected f a n = xs ++ [x] →
      ∃ k m, n = k + 1 + m ∧ collected f a k = xs ∧ f (a + k) = [x] ∧ collected f (a + k + 1) m = [] := by
  intro n
  induction n with
  | zero =>
    intro h
    exact absurd (congrArg List.length h) (by simp [collected])
  | succ n ih =>
    intro h
    rw [collected_succ] at h
    have hshort := hone (a + n)
    rcases hlast : f (a + n) with _ | ⟨y, _ | ⟨z, l⟩⟩
    · rw [hlast, List.append_nil] at h
      obtain ⟨k, m, rfl, hbefore, hvalue, hafter⟩ := ih h
      have hpos : a + k + 1 + m = a + (k + 1 + m) := by omega
      refine ⟨k, m + 1, rfl, hbefore, hvalue, ?_⟩
      rw [collected_succ, hafter, hpos, hlast]
      rfl
    · rw [hlast] at h
      obtain ⟨hxs, hx⟩ := List.append_inj' h rfl
      exact ⟨n, 0, rfl, hxs, hlast.trans hx, rfl⟩
    · rw [hlast] at hshort
      simp only [List.length_cons] at hshort
      omega

/-- From `a` on the process comes to rest after every job. `got` and `due` agree over a job exactly
when it is a good one, and while it rests. -/
structure Episodes (a : Nat) (rests start good : Nat → Prop) (got due : Nat → List α) : Prop where
  wait : ∀ t ≥ a, rests t → ¬ start t → rests (t + 1) ∧ got t = due t
  job : ∀ t ≥ a, rests t → start t → ∃ d > 0, rests (t + d) ∧
    (∀ k, 0 < k → k < d → ¬ rests (t + k)) ∧ (collected got t d = collected due t d ↔ good t)

variable {a : Nat} {rests start good : Nat → Prop} {got due : Nat → List α}
variable (h : Episodes a rests start good got due)
include h

theorem Episodes.step {t : Nat} (ht : t ≥ a) (hrest : rests t) : ∃ d > 0, rests (t + d) ∧
    (∀ k, 0 < k → k < d → ¬ rests (t + k)) ∧
      (collected got t d = collected due t d ↔ (start t → good t)) := by
  by_cases hstart : start t
  · obtain ⟨d, hd, hnext, hbusy, hgood⟩ := h.job t ht hrest hstart
    exact ⟨d, hd, hnext, hbusy, hgood.trans ⟨fun hon _ => hon, fun hon => hon hstart⟩⟩
  · obtain ⟨hnext, heq⟩ := h.wait t ht hrest hstart
    refine ⟨1, Nat.one_pos, hnext, fun k _ _ => by omega, ?_⟩
    rw [collected_one, collected_one]
    exact ⟨fun _ hon => absurd hon hstart, fun _ => heq⟩

/-- It always comes to rest again. -/
theorem Episodes.returns (ha : rests a) (n : Nat) : ∃ m ≥ n, rests (a + m) := by
  induction n with
  | zero => exact ⟨0, Nat.le_refl 0, ha⟩
  | succ n ih =>
    obtain ⟨m, hm, hrest⟩ := ih
    obtain ⟨d, hd, hnext, -⟩ := h.step (Nat.le_add_right a m) hrest
    exact ⟨m + d, by omega, by rwa [← Nat.add_assoc]⟩

theorem Episodes.collected_eq (n : Nat) : ∀ t ≥ a, rests t →
    (∀ k < n, rests (t + k) → start (t + k) → good (t + k)) → rests (t + n) →
      collected got t n = collected due t n := by
  induction n using Nat.strongRecOn with
  | ind n ih =>
    intro t ht hrest hgood hend
    rcases Nat.eq_zero_or_pos n with rfl | hpos
    · rfl
    obtain ⟨d, hd, hnext, hbusy, hstep⟩ := h.step ht hrest
    have hle : d ≤ n := by
      by_contra hlt
      exact hbusy n hpos (by omega) hend
    obtain ⟨m, rfl⟩ := Nat.exists_eq_add_of_le hle
    have hfirst := hstep.mpr (hgood 0 hpos hrest)
    have hlater := ih m (by omega) (t + d) (by omega) hnext
      (fun k hk hrest' => by
        rw [Nat.add_assoc] at hrest' ⊢
        exact hgood (d + k) (by omega) hrest')
      (by rwa [Nat.add_assoc])
    rw [collected_add, collected_add, hfirst, hlater]

/-- All jobs are answered as they are due exactly when all are good ones. -/
theorem Episodes.collected_eq_iff (ha : rests a) :
    (∀ n, rests (a + n) → collected got a n = collected due a n) ↔
      ∀ n, rests (a + n) → start (a + n) → good (a + n) := by
  constructor
  · intro hall n hrest hstart
    obtain ⟨d, hd, hnext, -, hstep⟩ := h.job (a + n) (Nat.le_add_right a n) hrest hstart
    have hbefore := hall n hrest
    have hafter := hall (n + d) (by rwa [← Nat.add_assoc])
    rw [collected_add, collected_add, hbefore] at hafter
    exact hstep.mp (List.append_cancel_left hafter)
  · intro hgood n hend
    exact h.collected_eq n a (Nat.le_refl a) ha (fun k _ => hgood k) hend

end Collected
end KuznyechikDPA
