import KuznyechikDPA.Foundation.BlockEngine
import Mathlib.Data.List.Flatten

/-!
# The replies of a block engine

Over a run whose blocks all start at rest and find the receiver ready, the engine
replies exactly to the blocks whose mark differs from the mark of the block before. No
reply is lost if and only if no two neighbouring marks agree, the initial memory
counting as the mark before the first.
-/

namespace KuznyechikDPA

universe u v w x

/-! ## Keeping what differs from its predecessor -/

section Fresh
variable {κ : Type u} {β : Type v} [DecidableEq β] (mark : κ → β)

/-- The elements whose mark differs from the mark of the element before them. -/
def fresh : β → List κ → List κ
  | _, [] => []
  | m, b :: bs => if mark b = m then fresh m bs else b :: fresh (mark b) bs

def lastMark (m : β) (bs : List κ) : β := bs.foldl (fun _ b => mark b) m

theorem fresh_concat (m : β) (bs : List κ) (b : κ) :
    fresh mark m (bs ++ [b]) =
      fresh mark m bs ++ if mark b = lastMark mark m bs then [] else [b] := by
  induction bs generalizing m with
  | nil => rfl
  | cons c bs ih =>
    rw [List.cons_append, fresh, fresh]
    by_cases hc : mark c = m
    · subst m
      rw [if_pos rfl, if_pos rfl, ih]
      rfl
    · rw [if_neg hc, if_neg hc, ih]
      rfl

theorem fresh_sublist (m : β) (bs : List κ) : (fresh mark m bs).Sublist bs := by
  induction bs generalizing m with
  | nil => exact .slnil
  | cons b bs ih =>
    rw [fresh]
    split
    · exact (ih m).cons b
    · exact (ih (mark b)).cons_cons b

theorem fresh_eq_self_iff (m : β) (bs : List κ) :
    fresh mark m bs = bs ↔ List.IsChain (· ≠ ·) (m :: bs.map mark) := by
  induction bs generalizing m with
  | nil => simp [fresh]
  | cons b bs ih =>
    rw [fresh, List.map_cons, List.isChain_cons_cons, ← ih]
    by_cases hb : mark b = m
    · rw [if_pos hb]
      constructor
      · intro h
        have hlen := (fresh_sublist mark m bs).length_le
        rw [h, List.length_cons] at hlen
        omega
      · intro h
        exact absurd hb.symm h.1
    · rw [if_neg hb]
      constructor
      · intro h
        exact ⟨fun hm => hb hm.symm, (List.cons.inj h).2⟩
      · intro h
        rw [h.2]

theorem map_fresh_eq_iff {γ : Type w} (f : κ → γ) (m : β) (bs : List κ) :
    (fresh mark m bs).map f = bs.map f ↔ List.IsChain (· ≠ ·) (m :: bs.map mark) := by
  rw [← fresh_eq_self_iff]
  constructor
  · intro h
    refine (fresh_sublist mark m bs).eq_of_length ?_
    have hlen := congrArg List.length h
    rwa [List.length_map, List.length_map] at hlen
  · intro h
    rw [h]

end Fresh

/-! ## Runs -/

namespace BlockEngine
variable {ι : Type u} {ε : Type v} {δ : Type w} {β : Type x} (e : BlockEngine ι ε δ β)

/-- The starting samples among the first `T`. -/
def presented (input : Nat → ι) (T : Nat) : List ι :=
  ((List.range T).map input).filter e.starts

/-- The published results of a trace, one for every edge period in which `transmit` is high. -/
def replies (trace : Nat → Registers δ β) (T : Nat) : List β :=
  ((List.range T).map fun t => trace (t + 1)).flatMap
    fun r => if r.transmit then [r.output] else []

theorem presented_succ (input : Nat → ι) (T : Nat) :
    e.presented input (T + 1) =
      e.presented input T ++ if e.starts (input T) then [input T] else [] := by
  simp only [presented, List.range_succ, List.map_append, List.filter_append, List.map_cons,
    List.map_nil, List.filter_cons, List.filter_nil]

theorem replies_succ (trace : Nat → Registers δ β) (T : Nat) :
    replies trace (T + 1) =
      replies trace T ++ if (trace (T + 1)).transmit then [(trace (T + 1)).output] else [] := by
  simp only [replies, List.range_succ, List.map_append, List.flatMap_append, List.map_cons,
    List.map_nil, List.flatMap_cons, List.flatMap_nil, List.append_nil]

/-- Every block starts at rest, finds the receiver ready when it is done, and keeps its
environment; at the end the engine is at rest again. -/
structure Orderly (trace : Nat → Registers δ β) (input : Nat → ι) (T : Nat) : Prop where
  prompt : ∀ t < T, e.starts (input t) = true → (trace t).tour = 0
  ready : ∀ t < T, (trace t).tour = e.tours + 1 → (trace t).transmit = false →
    e.ready (input t) = true
  steady : ∀ t, t + 1 < T → (trace (t + 1)).tour ≠ 0 → e.env (input (t + 1)) = e.env (input t)
  rest : (trace T).tour = 0

section Progress
variable [DecidableEq β]

/-- What has been presented and replied, against the registers: `m` is the memory of the
start of the run, `env` the environment of the last sample. -/
inductive Progress (m : β) : List ι → List β → ε → Registers δ β → Prop where
  | rest {done : List ι} {env : ε} {s : Registers δ β} (tour : s.tour = 0)
      (silent : s.transmit = false) (memory : s.memory = lastMark e.blockMark m done) :
      Progress m done ((fresh e.blockMark m done).map e.blockResult) env s
  | working {done : List ι} {b : ι} {n : Nat} {env : ε} {s : Registers δ β} (hn : n ≤ e.tours)
      (work : e.Working b n s) (henv : env = e.env b)
      (memory : s.memory = lastMark e.blockMark m done) :
      Progress m (done ++ [b]) ((fresh e.blockMark m done).map e.blockResult) env s
  | sent {done : List ι} {env : ε} {s : Registers δ β} (tour : s.tour = e.tours + 1)
      (mark : s.memory = e.mark s.datum) (memory : s.memory = lastMark e.blockMark m done) :
      Progress m done ((fresh e.blockMark m done).map e.blockResult) env s

variable {e}

omit [DecidableEq β] in
theorem lastMark_concat (m : β) (done : List ι) (b : ι) :
    lastMark e.blockMark m (done ++ [b]) = e.blockMark b := by
  rw [lastMark, List.foldl_append]
  rfl

theorem progress_publish {m : β} {done : List ι} {b i : ι} {s : Registers δ β}
    (hwork : e.Working b e.tours s) (hmem : s.memory = lastMark e.blockMark m done)
    (hready : e.ready i = true) :
    e.Progress m (done ++ [b])
      ((fresh e.blockMark m done).map e.blockResult ++
        if (e.edge i s).transmit then [(e.edge i s).output] else []) (e.env i) (e.edge i s) := by
  have hmark : e.mark s.datum = e.blockMark b := congrArg e.mark hwork.datum
  have hresult : e.result s.datum = e.blockResult b := congrArg e.result hwork.datum
  have hfresh := fresh_concat e.blockMark m done b
  by_cases hsame : e.blockMark b = lastMark e.blockMark m done
  · have hedge := edge_finish e (i := i) hwork.tour (by rw [hmem, hmark, hsame])
    rw [if_pos hsame, List.append_nil] at hfresh
    rw [hedge, if_neg Bool.false_ne_true, List.append_nil, ← hfresh]
    refine .rest rfl rfl ?_
    rw [lastMark_concat, hsame]
    exact hmem
  · have hedge := edge_announce e hwork.tour hready (by rw [hmem, hmark]; exact Ne.symm hsame)
    rw [if_neg hsame] at hfresh
    have hreplies : (fresh e.blockMark m done).map e.blockResult ++ [e.blockResult b] =
        (fresh e.blockMark m (done ++ [b])).map e.blockResult := by
      rw [hfresh, List.map_append, List.map_cons, List.map_nil]
    rw [hedge, if_pos rfl, hresult, hreplies]
    refine .sent hwork.tour rfl ?_
    rw [lastMark_concat]
    exact hmark

theorem progress_step {m : β} {ps : List ι} {rs : List β} {env : ε} {i : ι} {s : Registers δ β}
    (h : e.Progress m ps rs env s) (hprompt : e.starts i = true → s.tour = 0)
    (hready : s.tour = e.tours + 1 → s.transmit = false → e.ready i = true)
    (hsteady : s.tour ≠ 0 → e.env i = env) :
    e.Progress m (ps ++ if e.starts i then [i] else [])
      (rs ++ if (e.edge i s).transmit then [(e.edge i s).output] else []) (e.env i)
      (e.edge i s) := by
  have hidle (htour : s.tour ≠ 0) : (ps ++ if e.starts i then [i] else []) = ps := by
    rw [if_neg fun hs => htour (hprompt hs), List.append_nil]
  cases h with
  | rest htour hsilent hmem =>
    cases hs : e.starts i with
    | true =>
      have hwork := e.working_start htour hs
      have hkeep : (e.edge i s).memory = s.memory := by rw [edge_start e htour hs]
      rw [hwork.silent, if_pos rfl, if_neg Bool.false_ne_true, List.append_nil]
      exact .working (Nat.zero_le _) hwork rfl (hkeep.trans hmem)
    | false =>
      rw [edge_idle e htour hs, hsilent, if_neg Bool.false_ne_true, if_neg Bool.false_ne_true,
        List.append_nil, List.append_nil]
      exact .rest htour hsilent hmem
  | @working done b n _ _ hn hwork henv hmem =>
    have htour : s.tour ≠ 0 := by
      rw [hwork.tour]
      omega
    rw [hidle htour]
    rcases Nat.lt_or_eq_of_le hn with hlt | rfl
    · have hnext := e.working_step hwork hlt ((hsteady htour).trans henv)
      have hkeep : (e.edge i s).memory = s.memory := by
        rw [edge_work e htour (by rw [hwork.tour]; omega)]
      rw [hnext.silent, if_neg Bool.false_ne_true, List.append_nil]
      exact .working hlt hnext ((hsteady htour).trans henv) (hkeep.trans hmem)
    · exact progress_publish hwork hmem (hready hwork.tour hwork.silent)
  | sent htour hmark hmem =>
    rw [hidle (by omega), edge_finish e htour hmark, if_neg Bool.false_ne_true, List.append_nil]
    exact .rest rfl rfl hmem

end Progress

section Run
variable [DecidableEq β] {e} {s : Registers δ β} {input : Nat → ι} {T : Nat}
variable (htour : s.tour = 0) (hsilent : s.transmit = false)
include htour hsilent

theorem progress_run (h : e.Orderly (Machine.run e.edge s input) input T) (t : Nat) (ht : t ≤ T) :
    ∃ env, (∀ j, t = j + 1 → env = e.env (input j)) ∧
      e.Progress s.memory (e.presented input t) (replies (Machine.run e.edge s input) t) env
        (Machine.run e.edge s input t) := by
  induction t with
  | zero =>
    have hrest : e.Progress s.memory [] [] (e.env (input 0)) s := .rest htour hsilent rfl
    exact ⟨e.env (input 0), by omega, hrest⟩
  | succ t ih =>
    obtain ⟨env, henv, hprog⟩ := ih (by omega)
    refine ⟨e.env (input t), fun j hj => by rw [Nat.succ.inj hj], ?_⟩
    rw [presented_succ, replies_succ]
    refine progress_step hprog (h.prompt t (by omega)) (h.ready t (by omega)) ?_
    intro hbusy
    rcases t with _ | t
    · exact absurd htour hbusy
    · rw [henv t rfl]
      exact h.steady t (by omega) hbusy

/-- The replies of an orderly run are the results of the blocks with a fresh mark, in order. -/
theorem replies_eq (h : e.Orderly (Machine.run e.edge s input) input T) :
    replies (Machine.run e.edge s input) T =
      (fresh e.blockMark s.memory (e.presented input T)).map e.blockResult := by
  obtain ⟨env, -, hprog⟩ := progress_run htour hsilent h T le_rfl
  have hrest := h.rest
  generalize e.presented input T = ps, replies (Machine.run e.edge s input) T = rs,
    Machine.run e.edge s input T = r
    at hprog hrest
  cases hprog with
  | rest => rfl
  | working _ hwork =>
    have hbusy := hwork.tour
    omega
  | sent hbusy => omega

theorem replies_complete_iff (h : e.Orderly (Machine.run e.edge s input) input T) :
    replies (Machine.run e.edge s input) T = (e.presented input T).map e.blockResult ↔
      List.IsChain (· ≠ ·) (s.memory :: (e.presented input T).map e.blockMark) := by
  rw [replies_eq htour hsilent h]
  exact map_fresh_eq_iff e.blockMark e.blockResult s.memory _

end Run

theorem orderly_pair [DecidableEq β] {s : Registers δ β} (htour : s.tour = 0) {input : Nat → ι}
    {n : Nat} (hn : n = e.tours + 3)
    (hstart : ∀ t < n + n, e.starts (input t) = true ↔ t = 0 ∨ t = n)
    (hready : ∀ t, e.ready (input t) = true) (henv : ∀ t, e.env (input t) = e.env (input 0)) :
    e.Orderly (Machine.run e.edge s input) input (n + n) := by
  have hidle (t : Nat) (ht : t < n + n) (h0 : t ≠ 0) (h1 : t ≠ n) :
      e.starts (input t) = false := by
    rw [Bool.eq_false_iff, ne_eq, hstart t ht]
    omega
  have hfirst : (Machine.run e.edge s input n).tour = 0 := by
    subst n
    exact e.run_rest htour ((hstart 0 (by omega)).mpr (.inl rfl)) (fun t _ => henv t)
      (hidle _ (by omega) (by omega) (by omega))
  have hsecond : (Machine.run e.edge s input (n + n)).tour = 0 := by
    rw [Machine.run_add]
    subst n
    refine e.run_rest hfirst ((hstart _ (by omega)).mpr (.inr rfl)) (fun t _ => ?_)
      (hidle _ (by omega) (by omega) (by omega))
    rw [henv, henv (e.tours + 3 + 0)]
  constructor
  · intro t ht hs
    rcases (hstart t ht).mp hs with rfl | rfl
    · exact htour
    · exact hfirst
  · exact fun t _ _ _ => hready t
  · exact fun t _ _ => (henv (t + 1)).trans (henv t).symm
  · exact hsecond

end BlockEngine
end KuznyechikDPA
