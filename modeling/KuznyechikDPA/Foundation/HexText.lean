import KuznyechikDPA.Foundation.Words
import Mathlib.Data.List.OfFn

/-!
# Hexadecimal texts of bytes

A text is a list of characters. `hexFormat` writes a number with lower-case digits, padded
with zeros on the left; `hexNumber` reads digits of either case. A tuple of bytes has a text
of two digits a byte, and that is how the word made of these bytes is written.
-/

namespace KuznyechikDPA

/-- A number in lower-case hexadecimal digits, padded with zeros to width `w`. -/
def hexFormat (w n : Nat) : List Char := (Nat.toDigits 16 n).leftpad w '0'

def hexValue (c : Char) : Option Nat :=
  if '0' ≤ c ∧ c ≤ '9' then some (c.toNat - '0'.toNat)
  else if 'a' ≤ c ∧ c ≤ 'f' then some (c.toNat - 'a'.toNat + 10)
  else if 'A' ≤ c ∧ c ≤ 'F' then some (c.toNat - 'A'.toNat + 10)
  else none

/-- The number that a text of one or more digits denotes. -/
def hexNumber (s : List Char) : Option Nat :=
  if s = [] then none else s.foldlM (fun n c => (hexValue c).map (16 * n + ·)) 0

/-! ## Digits -/

/-- The last `w` digits. -/
def hexDigits : Nat → Nat → List Char
  | 0, _ => []
  | w + 1, n => hexDigits w (n / 16) ++ [(n % 16).digitChar]

theorem length_hexDigits (w n : Nat) : (hexDigits w n).length = w := by
  induction w generalizing n with
  | zero => rfl
  | succ w ih => rw [hexDigits, List.length_append, ih, List.length_singleton]

theorem hexDigits_zero (w : Nat) : hexDigits w 0 = List.replicate w '0' := by
  induction w with
  | zero => rfl
  | succ w ih =>
    rw [hexDigits, Nat.zero_div, ih, List.replicate_succ']
    rfl

theorem leftpad_concat (w : Nat) (l : List Char) (c : Char) :
    (l ++ [c]).leftpad (w + 1) '0' = l.leftpad w '0' ++ [c] := by
  simp only [List.leftpad, List.length_append, List.length_singleton, Nat.add_sub_add_right,
    List.append_assoc]

/-- A number that fits is written with exactly `w` digits. -/
theorem hexFormat_eq {w n : Nat} (hn : n < 16 ^ (w + 1)) : hexFormat (w + 1) n = hexDigits (w + 1) n := by
  induction w generalizing n with
  | zero =>
    have hlt : n < 16 := by simpa using hn
    rw [hexFormat, Nat.toDigits_of_lt_base hlt, hexDigits, hexDigits, Nat.mod_eq_of_lt hlt]
    rfl
  | succ w ih =>
    have hdiv : n / 16 < 16 ^ (w + 1) := by
      rw [Nat.div_lt_iff_lt_mul (by decide), ← Nat.pow_succ]
      exact hn
    rw [hexFormat, hexDigits]
    by_cases hlt : n < 16
    · rw [Nat.toDigits_of_lt_base hlt, Nat.div_eq_of_lt hlt, Nat.mod_eq_of_lt hlt, hexDigits_zero]
      rfl
    · rw [Nat.toDigits_of_base_le (by decide) (Nat.not_lt.mp hlt), leftpad_concat, ← ih hdiv]
      rfl

theorem hexDigits_append {v b : Nat} (w a : Nat) (hb : b < 16 ^ v) :
    hexDigits (w + v) (a * 16 ^ v + b) = hexDigits w a ++ hexDigits v b := by
  induction v generalizing b with
  | zero =>
    obtain rfl : b = 0 := by simpa using hb
    simp [hexDigits]
  | succ v ih =>
    have hdiv : b / 16 < 16 ^ v := by
      rw [Nat.div_lt_iff_lt_mul (by decide), ← Nat.pow_succ]
      exact hb
    have hsplit : a * 16 ^ (v + 1) + b = 16 * (a * 16 ^ v) + b := by ring
    have hhigh : (a * 16 ^ (v + 1) + b) / 16 = a * 16 ^ v + b / 16 := by omega
    have hlow : (a * 16 ^ (v + 1) + b) % 16 = b % 16 := by omega
    rw [← Nat.add_assoc, hexDigits, hexDigits, hhigh, hlow, ih hdiv, List.append_assoc]

theorem newline_not_mem_hexDigits (w n : Nat) : '\n' ∉ hexDigits w n := by
  induction w generalizing n with
  | zero => exact List.not_mem_nil
  | succ w ih =>
    have hdigit (d : Nat) (hd : d < 16) : '\n' ≠ d.digitChar := by
      interval_cases d <;> decide
    rw [hexDigits, List.mem_append, List.mem_singleton, not_or]
    exact ⟨ih (n / 16), hdigit (n % 16) (Nat.mod_lt n (by decide))⟩

theorem hexValue_digitChar {d : Nat} (hd : d < 16) : hexValue d.digitChar = some d := by
  interval_cases d <;> rfl

theorem foldlM_hexDigits {w n : Nat} (hn : n < 16 ^ w) (a : Nat) :
    (hexDigits w n).foldlM (fun n c => (hexValue c).map (16 * n + ·)) a = some (a * 16 ^ w + n) := by
  induction w generalizing n with
  | zero =>
    obtain rfl : n = 0 := by simpa using hn
    simp [hexDigits]
  | succ w ih =>
    have hdiv : n / 16 < 16 ^ w := by
      rw [Nat.div_lt_iff_lt_mul (by decide), ← Nat.pow_succ]
      exact hn
    have hmod : n % 16 < 16 := Nat.mod_lt n (by decide)
    have hvalue : 16 * (a * 16 ^ w + n / 16) + n % 16 = a * 16 ^ (w + 1) + n := by
      rw [Nat.pow_succ, Nat.mul_add, Nat.add_assoc, Nat.div_add_mod, ← Nat.mul_assoc, ← Nat.mul_assoc]
      congr 1
      ring
    rw [hexDigits, List.foldlM_append, ih hdiv]
    simp only [Option.bind_eq_bind, Option.bind_some, List.foldlM_cons, List.foldlM_nil,
      hexValue_digitChar hmod, Option.map_some, hvalue]
    rfl

theorem hexNumber_hexDigits {w n : Nat} (hn : n < 16 ^ (w + 1)) :
    hexNumber (hexDigits (w + 1) n) = some n := by
  have hne : hexDigits (w + 1) n ≠ [] := by
    rw [Ne, ← List.length_eq_zero_iff, length_hexDigits]
    exact Nat.succ_ne_zero w
  rw [hexNumber, if_neg hne, foldlM_hexDigits hn, Nat.zero_mul, Nat.zero_add]

/-! ## Bytes -/

variable {n : Nat}

/-- Two digits a byte. -/
def hexText (s : Fin n → Byte) : List Char := (List.ofFn fun i => hexDigits 2 (s i).toNat).flatten

theorem hexText_succ (s : Fin (n + 1) → Byte) :
    hexText s = hexDigits 2 (s 0).toNat ++ hexText fun i => s i.succ := by
  rw [hexText, List.ofFn_succ, List.flatten_cons]
  rfl

theorem hexText_snoc (s : Fin n → Byte) (b : Byte) :
    hexText (Fin.snoc s b : Fin (n + 1) → Byte) = hexText s ++ hexDigits 2 b.toNat := by
  rw [hexText, List.ofFn_succ', List.concat_eq_append, List.flatten_append, List.flatten_singleton,
    Fin.snoc_last]
  simp only [Fin.snoc_castSucc]
  rfl

theorem length_hexText (s : Fin n → Byte) : (hexText s).length = 2 * n := by
  induction n with
  | zero => rfl
  | succ n ih =>
    rw [hexText_succ, List.length_append, length_hexDigits, ih]
    omega

theorem newline_not_mem_hexText (s : Fin n → Byte) : '\n' ∉ hexText s := by
  induction n with
  | zero => exact List.not_mem_nil
  | succ n ih =>
    rw [hexText_succ, List.mem_append, not_or]
    exact ⟨newline_not_mem_hexDigits 2 _, ih fun i => s i.succ⟩

theorem drop_hexText (s : Fin (n + 1) → Byte) : (hexText s).drop 2 = hexText fun i => s i.succ := by
  rw [hexText_succ]
  exact List.drop_left' (length_hexDigits 2 _)

theorem take_hexText (s : Fin (n + 1) → Byte) : (hexText s).take 2 = hexDigits 2 (s 0).toNat := by
  rw [hexText_succ]
  exact List.take_left' (length_hexDigits 2 _)

theorem slice_hexText (s : Fin n → Byte) (i : Fin n) :
    ((hexText s).drop (2 * i)).take 2 = hexDigits 2 (s i).toNat := by
  induction n with
  | zero => exact i.elim0
  | succ n ih =>
    cases i using Fin.cases with
    | zero => exact take_hexText s
    | succ i =>
      have hdrop : (hexText s).drop (2 * i.succ) = ((hexText s).drop 2).drop (2 * i) := by
        rw [List.drop_drop, Fin.val_succ]
        congr 1
        omega
      rw [hdrop, drop_hexText]
      exact ih (fun i => s i.succ) i

theorem hexNumber_byte (b : Byte) : hexNumber (hexDigits 2 b.toNat) = some b.toNat :=
  hexNumber_hexDigits b.isLt

theorem toNat_ofBytes_succ (s : Fin (n + 1) → Byte) :
    (ofBytes s).toNat = (s 0).toNat * 16 ^ (2 * n) + (ofBytes fun i => s i.succ).toNat := by
  have hlt := (ofBytes fun i : Fin n => s i.succ).isLt
  have hpow : 2 ^ (8 * n) = 16 ^ (2 * n) := by
    rw [Nat.pow_mul, Nat.pow_mul]
  rw [ofBytes, BitVec.toNat_cast, BitVec.toNat_append, ← Nat.shiftLeft_add_eq_or_of_lt hlt,
    Nat.shiftLeft_eq, hpow]
  rfl

theorem toNat_ofBytes_lt (s : Fin n → Byte) : (ofBytes s).toNat < 16 ^ (2 * n) := by
  have hpow : 2 ^ (8 * n) = 16 ^ (2 * n) := by
    rw [Nat.pow_mul, Nat.pow_mul]
  rw [← hpow]
  exact (ofBytes s).isLt

/-- The text of a tuple shows the word made of it. -/
theorem hexText_eq (s : Fin n → Byte) : hexText s = hexDigits (2 * n) (ofBytes s).toNat := by
  induction n with
  | zero => rfl
  | succ n ih =>
    have hwidth : 2 * (n + 1) = 2 + 2 * n := by omega
    rw [hexText_succ, ih, toNat_ofBytes_succ, hwidth, hexDigits_append 2 _ (toNat_ofBytes_lt _)]

/-- A number that fits is written as the text of its bytes. -/
theorem hexFormat_ofBytes (s : Fin (n + 1) → Byte) :
    hexFormat (2 * (n + 1)) (ofBytes s).toNat = hexText s := by
  rw [hexText_eq]
  exact hexFormat_eq (w := 2 * n + 1) (toNat_ofBytes_lt s)

theorem hexNumber_hexText (s : Fin (n + 1) → Byte) : hexNumber (hexText s) = some (ofBytes s).toNat := by
  rw [hexText_eq]
  exact hexNumber_hexDigits (w := 2 * n + 1) (toNat_ofBytes_lt s)

theorem hexText_injective : Function.Injective (hexText (n := n + 1)) := by
  intro s t h
  have hnumber := hexNumber_hexText s
  rw [h, hexNumber_hexText, Option.some_inj] at hnumber
  have hword := BitVec.eq_of_toNat_eq hnumber
  rw [← toBytes_ofBytes s, ← hword, toBytes_ofBytes]

/-! ## Numbers from shifted bytes -/

/-- Sums and exclusive ors put the bytes of a number together alike. -/
theorem foldl_shifts {op : Nat → Nat → Nat} (hassoc : ∀ a b c, op (op a b) c = op a (op b c))
    (hzero : ∀ a, op a 0 = a) (hjoin : ∀ k x r, r < 2 ^ k → op (x <<< k) r = x * 2 ^ k + r)
    (s : Fin n → Byte) (a : Nat) :
    (List.ofFn fun i : Fin n => (s i).toNat <<< (8 * (n - 1 - i))).foldl op a =
      op a (ofBytes s).toNat := by
  induction n generalizing a with
  | zero => exact (hzero a).symm
  | succ n ih =>
    have hpow : 2 ^ (8 * n) = 16 ^ (2 * n) := by
      rw [Nat.pow_mul, Nat.pow_mul]
    have hrest : (List.ofFn fun i : Fin n => (s i.succ).toNat <<< (8 * (n + 1 - 1 - i.succ))) =
        List.ofFn fun i : Fin n => (s i.succ).toNat <<< (8 * (n - 1 - i)) := by
      congr 1
      funext i
      have hplace : n + 1 - 1 - i.succ.val = n - 1 - i.val := by
        rw [Fin.val_succ]
        omega
      rw [hplace]
    rw [List.ofFn_succ, List.foldl_cons, hrest, ih, hassoc, toNat_ofBytes_succ, ← hpow,
      ← hjoin _ _ _ (ofBytes fun i : Fin n => s i.succ).isLt]
    rfl

theorem foldl_add_shifts (s : Fin n → Byte) (a : Nat) :
    (List.ofFn fun i : Fin n => (s i).toNat <<< (8 * (n - 1 - i))).foldl (· + ·) a =
      a + (ofBytes s).toNat :=
  foldl_shifts Nat.add_assoc Nat.add_zero (fun k x _ _ => by rw [Nat.shiftLeft_eq]) s a

theorem foldl_xor_shifts (s : Fin n → Byte) (a : Nat) :
    (List.ofFn fun i : Fin n => (s i).toNat <<< (8 * (n - 1 - i))).foldl (· ^^^ ·) a =
      a ^^^ (ofBytes s).toNat := by
  apply foldl_shifts Nat.xor_assoc Nat.xor_zero
  intro k x r hr
  have hdisjoint : x <<< k ^^^ r = x <<< k ||| r := by
    apply Nat.eq_of_testBit_eq
    intro j
    rw [Nat.testBit_xor, Nat.testBit_or, Nat.testBit_shiftLeft]
    by_cases hj : k ≤ j
    · rw [Nat.testBit_lt_two_pow (Nat.lt_of_lt_of_le hr (Nat.pow_le_pow_right (by decide) hj))]
      simp
    · simp [hj]
  rw [hdisjoint, ← Nat.shiftLeft_add_eq_or_of_lt hr, Nat.shiftLeft_eq]

/-- A list that is worked off without an exception. -/
theorem mapM_eq_map {α β : Type} {f : α → Option β} {g : α → β} (h : ∀ a, f a = some (g a)) (l : List α) :
    l.mapM f = some (l.map g) := by
  have hf : f = fun a => pure (g a) := funext h
  rw [hf]
  exact List.mapM_pure

theorem mapM_range {β : Type} {f : Nat → Option β} {g : Fin n → β} (h : ∀ i : Fin n, f i = some (g i)) :
    (List.range n).mapM f = some (List.ofFn g) := by
  rw [← List.map_coe_finRange_eq_range, List.mapM_map, List.ofFn_eq_map]
  exact mapM_eq_map h (List.finRange n)

end KuznyechikDPA
