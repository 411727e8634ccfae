import KuznyechikDPA.Foundation.Correlation
import KuznyechikDPA.Foundation.HexText
import Mathlib.Data.List.MinMax

/-!
# The attack of `grasshopper_cpa.py`

The samples are rational numbers and the correlations are squared, which neither the absolute
value nor the order of the guesses notices. `none` stands for an access that fails and for the
quotient of a zero denominator.
-/

namespace KuznyechikDPA.GrasshopperCpa

open Correlation (mean comoment squared Affine)

def bin (n : Nat) : List Char := '0' :: 'b' :: Nat.toDigits 2 n

def HW : List Nat := (List.range 256).map fun n => (bin n).count '1'

def intermediate (data keyguess : Nat) : Nat := data ^^^ keyguess

/-! ## The attack -/

section Attack
variable {numtraces numpoints : Nat}

/-- `hyp[tnum]`. -/
def hypothesis (ct : List (List Nat)) (bnum kguess tnum : Nat) : Option Nat := do
  let row ← ct[tnum]?
  let data ← row[bnum]?
  HW[intermediate data kguess]?

/-- An array that a loop fills. -/
def fill (f : Fin numtraces → Option Nat) : Option (Fin numtraces → ℚ) :=
  if h : ∀ i, (f i).isSome then some fun i => (f i).get (h i) else none

/-- `sumnum`, `sumden1` and `sumden2` at one point of the traces. -/
def sums (hyp trace : Fin numtraces → ℚ) : ℚ × ℚ × ℚ :=
  (List.finRange numtraces).foldl (fun (sumnum, sumden1, sumden2) tnum =>
    let hdiff := hyp tnum - mean hyp
    let tdiff := trace tnum - mean trace
    (sumnum + hdiff * tdiff, sumden1 + hdiff * hdiff, sumden2 + tdiff * tdiff)) (0, 0, 0)

/-- The square of `cpaoutput[kguess]` at one point. -/
def cpaoutput (hyp trace : Fin numtraces → ℚ) : Option ℚ :=
  let (sumnum, sumden1, sumden2) := sums hyp trace
  if sumden1 * sumden2 = 0 then none else some (sumnum * sumnum / (sumden1 * sumden2))

/-- The square of `maxcpa[kguess]`. -/
def maxcpa (traces : Fin numtraces → Fin numpoints → ℚ) (ct : List (List Nat)) (bnum kguess : Nat) :
    Option ℚ := do
  let hyp ← fill fun tnum => hypothesis ct bnum kguess tnum
  let squares ← (List.finRange numpoints).mapM fun point => cpaoutput hyp fun tnum => traces tnum point
  squares.max?

/-- `np.argmax`: the first place of the maximum. -/
def argmax (l : List ℚ) : Option Nat := (List.range l.length).argmax fun i => l.getD i 0

def bestguess (traces : Fin numtraces → Fin numpoints → ℚ) (ct : List (List Nat)) : List (Option Nat) :=
  (List.range 16).map fun bnum => do
    let l ← (List.range 256).mapM fun kguess => maxcpa traces ct bnum kguess
    argmax l

end Attack

/-! ## Noise-free traces -/

def weight (x : Byte) : Nat := (bin x.toNat).count '1'

variable (cts : List (Fin 16 → Byte)) (b : Fin 16)

/-- `ct` as it is read from the file. -/
def ctOf : List (List Nat) := cts.map fun c => List.ofFn fun i => (c i).toNat

/-- The hypothesis of a guess, and for the right one the sample of the traces. -/
def leakage (g : Byte) : Fin cts.length → ℚ := fun t => weight (cts[t] b ^^^ g)

def noiseFree (k : Byte) : Fin cts.length → Fin 1 → ℚ := fun t _ => leakage cts b k t

/-- The hypothesis of a guess is an affine image of that of `k`. -/
def Related (k g : Byte) : Prop := Affine (leakage cts b g) (leakage cts b k)

/-! ## The steps of the attack -/

theorem HW_eq (x : Byte) : HW[x.toNat]? = some (weight x) := by
  rw [HW, List.getElem?_map, List.getElem?_range x.isLt]
  rfl

theorem hypothesis_eq (g : Byte) (t : Fin cts.length) :
    hypothesis (ctOf cts) b g.toNat t = some (weight (cts[t] b ^^^ g)) := by
  have hc : (ctOf cts)[t.val]? = some (List.ofFn fun i => (cts[t] i).toNat) := by
    rw [ctOf, List.getElem?_map, List.getElem?_eq_getElem t.isLt]
    rfl
  have hdata : (List.ofFn fun i => (cts[t] i).toNat)[b.val]? = some (cts[t] b).toNat := by
    rw [List.getElem?_ofFn, dif_pos b.isLt]
  rw [hypothesis, hc, Option.bind_eq_bind, Option.bind_some, hdata, Option.bind_eq_bind, Option.bind_some,
    intermediate, ← BitVec.toNat_xor, HW_eq]

theorem fill_eq {n : Nat} {f : Fin n → Option Nat} {g : Fin n → Nat} (h : ∀ i, f i = some (g i)) :
    fill f = some fun i => (g i : ℚ) := by
  have hf : f = fun i => some (g i) := funext h
  have hsome (i : Fin n) : (some (g i)).isSome = true := rfl
  rw [hf, fill]
  exact dif_pos hsome

theorem sums_eq {n : Nat} (hyp trace : Fin n → ℚ) :
    sums hyp trace = (comoment hyp trace, comoment hyp hyp, comoment trace trace) := by
  have hsplit (l : List (Fin n)) (x y z : ℚ) : l.foldl (fun (a : ℚ × ℚ × ℚ) tnum =>
      (a.1 + (hyp tnum - mean hyp) * (trace tnum - mean trace),
        a.2.1 + (hyp tnum - mean hyp) * (hyp tnum - mean hyp),
        a.2.2 + (trace tnum - mean trace) * (trace tnum - mean trace))) (x, y, z) =
      (x + (l.map fun t => (hyp t - mean hyp) * (trace t - mean trace)).sum,
        y + (l.map fun t => (hyp t - mean hyp) * (hyp t - mean hyp)).sum,
        z + (l.map fun t => (trace t - mean trace) * (trace t - mean trace)).sum) := by
    induction l generalizing x y z with
    | nil => simp
    | cons t l ih => simp only [List.foldl_cons, ih, List.map_cons, List.sum_cons, add_assoc]
  rw [sums, hsplit]
  simp only [zero_add, comoment, Fin.sum_univ_def]

theorem cpaoutput_eq {n : Nat} (hyp trace : Fin n → ℚ) : cpaoutput hyp trace = squared hyp trace := by
  rw [cpaoutput, sums_eq, squared]

/-- A single point needs no maximum. -/
theorem maxcpa_eq (k g : Byte) : maxcpa (noiseFree cts b k) (ctOf cts) b g.toNat =
    squared (leakage cts b g) (leakage cts b k) := by
  rw [maxcpa, fill_eq (hypothesis_eq cts b g)]
  simp only [Option.bind_eq_bind, Option.bind_some, List.finRange_succ, List.finRange_zero, List.map_nil,
    List.mapM_cons, List.mapM_nil, cpaoutput_eq]
  change ((squared (leakage cts b g) (leakage cts b k)).bind fun r => some [r]).bind (·.max?) = _
  cases squared (leakage cts b g) (leakage cts b k) with
  | none => rfl
  | some r => rfl

theorem argmax_ofFn {n : Nat} {r : Fin n → ℚ} {m : Fin n} (hmax : ∀ i, r i ≤ r m)
    (hfirst : ∀ i, r m ≤ r i → m ≤ i) : argmax (List.ofFn r) = some m.val := by
  have hindex (i : Nat) (hi : i < n) : (List.range n).idxOf i = i := by
    have hget := List.nodup_range.idxOf_getElem i (by rwa [List.length_range])
    rwa [List.getElem_range] at hget
  have hvalue (i : Nat) (hi : i < n) : (List.ofFn r).getD i 0 = r ⟨i, hi⟩ := by
    rw [List.getD_eq_getElem?_getD, List.getElem?_ofFn, dif_pos hi]
    rfl
  rw [argmax, List.length_ofFn, List.argmax_eq_some_iff]
  refine ⟨List.mem_range.mpr m.isLt, fun i hi => ?_, fun i hi hle => ?_⟩
  · rw [hvalue i (List.mem_range.mp hi), hvalue m m.isLt]
    exact hmax _
  · have hi' := List.mem_range.mp hi
    rw [hvalue i hi', hvalue m m.isLt] at hle
    rw [hindex i hi', hindex m m.isLt]
    exact hfirst ⟨i, hi'⟩ hle

section Guesses
variable {cts b}

/-- No guess has a constant hypothesis over the list. -/
def Varying (cts : List (Fin 16 → Byte)) (b : Fin 16) : Prop :=
  ∀ g : Byte, ∃ c ∈ cts, ∃ d ∈ cts, weight (c b ^^^ g) ≠ weight (d b ^^^ g)

theorem leakage_not_constant (h : Varying cts b) (g : Byte) :
    ¬ ∀ s t, leakage cts b g s = leakage cts b g t := by
  intro hconst
  obtain ⟨c, hc, d, hd, hne⟩ := h g
  obtain ⟨s, rfl⟩ := List.get_of_mem hc
  obtain ⟨t, rfl⟩ := List.get_of_mem hd
  exact hne (Nat.cast_injective (hconst s t))

/-- The attack finds the first of the related guesses. -/
theorem exists_bestguess (h : Varying cts b) (k : Byte) :
    ∃ g : Byte, (bestguess (noiseFree cts b k) (ctOf cts))[b.val]? = some (some g.toNat) ∧
      Related cts b k g ∧ ∀ g', Related cts b k g' → g ≤ g' := by
  choose r hr hle hone using fun g =>
    Correlation.squared_le_one (leakage_not_constant h g) (leakage_not_constant h k)
  have hlist : (List.range 256).mapM (maxcpa (noiseFree cts b k) (ctOf cts) b) =
      some (List.ofFn fun i : Fin 256 => r (BitVec.ofFin i)) :=
    mapM_range fun i => (maxcpa_eq cts b k (BitVec.ofFin i)).trans (hr _)
  have hk : Related cts b k k := Affine.refl _
  obtain ⟨g, hg, hfirst⟩ := WellFounded.has_min (measure BitVec.toNat).wf {g | Related cts b k g} ⟨k, hk⟩
  have hfirst' (g' : Byte) (hg' : Related cts b k g') : g ≤ g' := Nat.not_lt.mp (hfirst g' hg')
  have hargmax : argmax (List.ofFn fun i : Fin 256 => r (BitVec.ofFin i)) = some g.toNat := by
    refine argmax_ofFn (m := g.toFin) (fun i => ?_) fun i hi => ?_
    · rw [(hone g).mpr hg]
      exact hle _
    · rw [(hone g).mpr hg] at hi
      exact hfirst' _ ((hone _).mp (le_antisymm (hle _) hi))
  refine ⟨g, ?_, hg, hfirst'⟩
  rw [bestguess, List.getElem?_map, List.getElem?_range b.isLt, Option.map_some, hlist, Option.bind_eq_bind,
    Option.bind_some, hargmax]

/-! ## Related guesses -/

/-- The number of ones. -/
theorem weight_eq_sum (x : Byte) : weight x = ∑ j : Fin 8, (x.getLsbD j).toNat := by
  have hsum := forall_of_allBytes (p := fun x => decide (weight x = ∑ j : Fin 8, (x.getLsbD j).toNat))
    (by decide +kernel) x
  exact of_decide_eq_true hsum

theorem weight_twoPow (x : Byte) (i : Fin 8) : (weight (x ^^^ BitVec.twoPow 8 i) : ℚ) - weight x =
    if x.getLsbD i then -1 else 1 := by
  have hbit (j : Fin 8) : (((x ^^^ BitVec.twoPow 8 i).getLsbD j).toNat : ℚ) - (x.getLsbD j).toNat =
      if j = i then if x.getLsbD i then -1 else 1 else 0 := by
    rw [BitVec.getLsbD_xor, BitVec.getLsbD_twoPow]
    by_cases hj : j = i
    · subst hj
      cases x.getLsbD j <;> simp
    · have hne : ¬ (i : Nat) = j := fun heq => hj (Fin.ext heq.symm)
      simp [hj, hne]
  calc (weight (x ^^^ BitVec.twoPow 8 i) : ℚ) - weight x
      = ∑ j : Fin 8, ((((x ^^^ BitVec.twoPow 8 i).getLsbD j).toNat : ℚ) - (x.getLsbD j).toNat) := by
        rw [weight_eq_sum, weight_eq_sum, Nat.cast_sum, Nat.cast_sum, Finset.sum_sub_distrib]
    _ = ∑ j : Fin 8, if j = i then if x.getLsbD i then -1 else 1 else 0 := by
        simp only [hbit]
    _ = if x.getLsbD i then -1 else 1 := by
        rw [Finset.sum_ite_eq' Finset.univ i, if_pos (Finset.mem_univ i)]

theorem weight_complement (x : Byte) : weight (x ^^^ 0xFF) + weight x = 8 := by
  have hbit (j : Fin 8) : ((x ^^^ 0xFF).getLsbD j).toNat + (x.getLsbD j).toNat = 1 := by
    have hones : (0xFF : Byte).getLsbD j = true := by
      revert j
      decide
    rw [BitVec.getLsbD_xor, hones]
    cases x.getLsbD j <;> rfl
  rw [weight_eq_sum, weight_eq_sum, ← Finset.sum_add_distrib, Finset.sum_congr rfl fun j _ => hbit j]
  rfl

/-- The complement has the opposite correlation. -/
theorem related_complement (k : Byte) : Related cts b k (k ^^^ 0xFF) := by
  refine ⟨-1, 8, fun t => ?_⟩
  have hsum : ((weight (cts[t] b ^^^ k ^^^ 0xFF) + weight (cts[t] b ^^^ k) : Nat) : ℚ) = (8 : Nat) :=
    congrArg Nat.cast (weight_complement _)
  rw [Nat.cast_add] at hsum
  rw [leakage, leakage, ← BitVec.xor_assoc]
  linear_combination hsum

/-- The position has some byte and the eight bytes that differ from it in one bit. -/
def Neighbourhood (cts : List (Fin 16 → Byte)) (b : Fin 16) : Prop :=
  ∃ c ∈ cts, ∀ i : Fin 8, ∃ d ∈ cts, d b = c b ^^^ BitVec.twoPow 8 i

/-- A neighbourhood leaves only the right guess and its complement. -/
theorem eq_of_related (hn : Neighbourhood cts b) {k g : Byte} (h : Related cts b k g) :
    g = k ∨ g = k ^^^ 0xFF := by
  obtain ⟨c, hc, hnext⟩ := hn
  obtain ⟨a, e, haffine⟩ := h
  have hvalue (d) (hd : d ∈ cts) : (weight (d b ^^^ g) : ℚ) = a * weight (d b ^^^ k) + e := by
    obtain ⟨t, rfl⟩ := List.get_of_mem hd
    exact haffine t
  have hsign (i : Fin 8) : (if (c b ^^^ g).getLsbD i then (-1 : ℚ) else 1) =
      a * if (c b ^^^ k).getLsbD i then -1 else 1 := by
    obtain ⟨d, hd, hbyte⟩ := hnext i
    have hshift (x : Byte) : d b ^^^ x = c b ^^^ x ^^^ BitVec.twoPow 8 i := by
      rw [hbyte, BitVec.xor_assoc, BitVec.xor_comm (BitVec.twoPow 8 i), BitVec.xor_assoc]
    have hd' := hvalue d hd
    have hc' := hvalue c hc
    rw [hshift, hshift] at hd'
    rw [← weight_twoPow, ← weight_twoPow]
    linear_combination hd' - hc'
  have hunit : a = 1 ∨ a = -1 := by
    have hzero := hsign 0
    split_ifs at hzero
    · exact Or.inl (by linarith)
    · exact Or.inr (by linarith)
    · exact Or.inr (by linarith)
    · exact Or.inl (by linarith)
  rcases hunit with rfl | rfl
  · have hstate : c b ^^^ g = c b ^^^ k := by
      apply BitVec.eq_of_getLsbD_eq
      intro i hi
      have hbit := hsign ⟨i, hi⟩
      revert hbit
      cases (c b ^^^ g).getLsbD i <;> cases (c b ^^^ k).getLsbD i <;> norm_num
    exact Or.inl ((BitVec.xor_right_inj (c b)).mp hstate)
  · have hstate : c b ^^^ g = c b ^^^ (k ^^^ 0xFF) := by
      rw [← BitVec.xor_assoc]
      apply BitVec.eq_of_getLsbD_eq
      intro i hi
      have hone : (0xFF : Byte).getLsbD i = true := by interval_cases i <;> rfl
      have hbit := hsign ⟨i, hi⟩
      rw [BitVec.getLsbD_xor (x := c b ^^^ k), hone]
      revert hbit
      cases (c b ^^^ g).getLsbD i <;> cases (c b ^^^ k).getLsbD i <;> norm_num
    exact Or.inr ((BitVec.xor_right_inj (c b)).mp hstate)

/-! ## The best guess -/

/-- On noise-free traces the attack finds the first guess whose hypothesis is an affine image of the
leakage. That is the key byte unless an earlier guess has this property, as the complement of a key byte
from 128 on always has. -/
theorem bestguess_noiseFree (h : Varying cts b) (k : Byte) :
    ∃ g : Byte, (bestguess (noiseFree cts b k) (ctOf cts))[b.val]? = some (some g.toNat) ∧
      (Related cts b k g ∧ ∀ g', Related cts b k g' → g ≤ g') ∧
      (g = k ↔ ∀ g', Related cts b k g' → k ≤ g') ∧
      (Neighbourhood cts b → g.toNat = min k.toNat (k ^^^ 0xFF).toNat) := by
  obtain ⟨g, hbest, hg, hfirst⟩ := exists_bestguess h k
  have hk : Related cts b k k := Affine.refl _
  have hcomplement : Related cts b k (k ^^^ 0xFF) := related_complement k
  refine ⟨g, hbest, ⟨hg, hfirst⟩, ⟨?_, ?_⟩, ?_⟩
  · rintro rfl
    exact hfirst
  · intro hall
    exact BitVec.le_antisymm (hfirst k hk) (hall g hg)
  · intro hn
    have hle : g.toNat ≤ k.toNat := hfirst k hk
    have hle' : g.toNat ≤ (k ^^^ 0xFF).toNat := hfirst _ hcomplement
    rcases eq_of_related hn hg with rfl | rfl
    · exact (min_eq_left hle').symm
    · exact (min_eq_right hle).symm

end Guesses

/-! ## A key byte that is not found -/

/-- One ciphertext for every byte. -/
def allCts : List (Fin 16 → Byte) := (List.finRange 256).map fun i _ => BitVec.ofFin i

theorem mem_allCts (x : Byte) : (fun _ => x) ∈ allCts :=
  List.mem_map.mpr ⟨x.toFin, List.mem_finRange _, rfl⟩

theorem varying_allCts (b : Fin 16) : Varying allCts b := by
  intro g
  refine ⟨fun _ => g, mem_allCts g, fun _ => g ^^^ 0xFF, mem_allCts _, ?_⟩
  have hother : g ^^^ 0xFF ^^^ g = 0xFF := by
    rw [BitVec.xor_comm, ← BitVec.xor_assoc, BitVec.xor_self, BitVec.zero_xor]
  rw [BitVec.xor_self, hother]
  decide

theorem neighbourhood_allCts (b : Fin 16) : Neighbourhood allCts b :=
  ⟨fun _ => 0, mem_allCts 0, fun i => ⟨fun _ => 0 ^^^ BitVec.twoPow 8 i, mem_allCts _, rfl⟩⟩

/-- Byte 0x88 of a key is taken for 0x77. -/
theorem bestguess_noiseFree_allCts :
    (bestguess (noiseFree allCts 0 0x88) (ctOf allCts))[(0 : Fin 16).val]? = some (some 0x77) := by
  obtain ⟨g, hbest, -, -, hmin⟩ := bestguess_noiseFree (varying_allCts 0) 0x88
  have hvalue : g.toNat = 0x77 := hmin (neighbourhood_allCts 0)
  rw [hbest, hvalue]

/-- The first byte of the known key is not found, though every byte occurs. -/
theorem keyByte_missed : ¬ ∀ (cts : List (Fin 16 → Byte)) (b : Fin 16) (k : Byte), Varying cts b →
    (bestguess (noiseFree cts b k) (ctOf cts))[b.val]? = some (some k.toNat) := by
  intro hall
  obtain ⟨g, hbest, -, hfirst⟩ := exists_bestguess (varying_allCts 0) 0x88
  have hcomplement : g ≤ 0x88 ^^^ 0xFF := hfirst _ (related_complement 0x88)
  have hkey : some (some g.toNat) = some (some (0x88 : Byte).toNat) :=
    hbest.symm.trans (hall allCts 0 0x88 (varying_allCts 0))
  obtain rfl : g = 0x88 := BitVec.eq_of_toNat_eq (Option.some.inj (Option.some.inj hkey))
  revert hcomplement
  decide

end KuznyechikDPA.GrasshopperCpa
