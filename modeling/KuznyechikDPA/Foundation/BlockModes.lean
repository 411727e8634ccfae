import KuznyechikDPA.Foundation.Xor
import Mathlib.Logic.Equiv.Basic

/-!
# Modes of operation

A mode turns permutations of blocks into a cipher of rows of blocks: it carries one block from each
step to the next. Every step has a permutation of its own, since a key may change on the way.
Blocks are any type with exclusive or; `next` is the step of the counter.
-/

namespace KuznyechikDPA.BlockModes

universe u

inductive Mode where
  | ecb
  | cbc
  | cfb
  | ofb
  | ctr
  deriving DecidableEq

namespace Mode
variable {β : Type u} [XorOp β] (next : β → β)

/-- The carried block and the cipher block of a step. -/
def encryptStep (mode : Mode) (v : β) (E : Equiv.Perm β) (p : β) : β × β :=
  match mode with
  | ecb => (v, E p)
  | cbc => (E (p ^^^ v), E (p ^^^ v))
  | cfb => (E v ^^^ p, E v ^^^ p)
  | ofb => (E v, E v ^^^ p)
  | ctr => (next v, E (next v) ^^^ p)

/-- The carried block and the plain block. -/
def decryptStep (mode : Mode) (v : β) (E : Equiv.Perm β) (c : β) : β × β :=
  match mode with
  | ecb => (v, E.symm c)
  | cbc => (c, E.symm c ^^^ v)
  | cfb => (c, E v ^^^ c)
  | ofb => (E v, E v ^^^ c)
  | ctr => (next v, E (next v) ^^^ c)

/-- The cipher blocks of a row. -/
def encrypt (mode : Mode) : β → List (Equiv.Perm β × β) → List β
  | _, [] => []
  | v, (E, p) :: row =>
    (mode.encryptStep next v E p).2 :: encrypt mode (mode.encryptStep next v E p).1 row

/-- The plain blocks of a row. -/
def decrypt (mode : Mode) : β → List (Equiv.Perm β × β) → List β
  | _, [] => []
  | v, (E, c) :: row =>
    (mode.decryptStep next v E c).2 :: decrypt mode (mode.decryptStep next v E c).1 row

/-- The block carried out of a row. -/
def carried (mode : Mode) : β → List (Equiv.Perm β × β) → β
  | v, [] => v
  | v, (E, p) :: row => carried mode (mode.encryptStep next v E p).1 row

variable {next} (mode : Mode) (v : β)

theorem encrypt_cons (E : Equiv.Perm β) (p : β) (row : List (Equiv.Perm β × β)) :
    mode.encrypt next v ((E, p) :: row) =
      (mode.encryptStep next v E p).2 :: mode.encrypt next (mode.encryptStep next v E p).1 row := rfl

theorem decrypt_cons (E : Equiv.Perm β) (c : β) (row : List (Equiv.Perm β × β)) :
    mode.decrypt next v ((E, c) :: row) =
      (mode.decryptStep next v E c).2 :: mode.decrypt next (mode.decryptStep next v E c).1 row := rfl

theorem length_encrypt (row : List (Equiv.Perm β × β)) :
    (mode.encrypt next v row).length = row.length := by
  induction row generalizing v with
  | nil => rfl
  | cons first row ih => rw [encrypt_cons, List.length_cons, ih, List.length_cons]

theorem encrypt_append (row rest : List (Equiv.Perm β × β)) :
    mode.encrypt next v (row ++ rest) =
      mode.encrypt next v row ++ mode.encrypt next (mode.carried next v row) rest := by
  induction row generalizing v with
  | nil => rfl
  | cons first row ih => rw [List.cons_append, encrypt_cons, encrypt_cons, ih, carried, List.cons_append]

theorem carried_append (row rest : List (Equiv.Perm β × β)) :
    mode.carried next v (row ++ rest) =
      mode.carried next (mode.carried next v row) rest := by
  induction row generalizing v with
  | nil => rfl
  | cons first row ih => rw [List.cons_append, carried, carried, ih]

/-- A cipher block is the one of its step, under the block carried so far. -/
theorem getElem?_encrypt (row : List (Equiv.Perm β × β)) (i : Nat) :
    (mode.encrypt next v row)[i]? =
      row[i]?.map fun x => (mode.encryptStep next (mode.carried next v (row.take i)) x.1 x.2).2 := by
  induction row generalizing v i with
  | nil => rfl
  | cons first row ih =>
    cases i with
    | zero => rfl
    | succ i => rw [encrypt_cons, List.getElem?_cons_succ, List.getElem?_cons_succ, ih]; rfl

/-! ## Round trips -/

variable [Zero β] [LawfulXor β]

/-- A step is undone under the same carried block, and the next ones agree. -/
theorem decryptStep_encryptStep (E : Equiv.Perm β) (p : β) :
    mode.decryptStep next v E (mode.encryptStep next v E p).2 = ((mode.encryptStep next v E p).1, p) := by
  cases mode <;>
    simp only [encryptStep, decryptStep, Equiv.symm_apply_apply, xor_cancel_right, xor_cancel_left]

theorem encryptStep_decryptStep (E : Equiv.Perm β) (c : β) :
    mode.encryptStep next v E (mode.decryptStep next v E c).2 = ((mode.decryptStep next v E c).1, c) := by
  cases mode <;>
    simp only [encryptStep, decryptStep, Equiv.apply_symm_apply, xor_cancel_right, xor_cancel_left]

/-- Whoever knows the permutations and the first carried block reads the row. -/
theorem decrypt_encrypt (row : List (Equiv.Perm β × β)) :
    mode.decrypt next v ((row.map Prod.fst).zip (mode.encrypt next v row)) = row.map Prod.snd := by
  induction row generalizing v with
  | nil => rfl
  | cons first row ih =>
    obtain ⟨E, p⟩ := first
    rw [encrypt_cons, List.map_cons, List.zip_cons_cons, decrypt_cons, decryptStep_encryptStep, ih,
      List.map_cons]

theorem encrypt_decrypt (row : List (Equiv.Perm β × β)) :
    mode.encrypt next v ((row.map Prod.fst).zip (mode.decrypt next v row)) = row.map Prod.snd := by
  induction row generalizing v with
  | nil => rfl
  | cons first row ih =>
    obtain ⟨E, c⟩ := first
    rw [decrypt_cons, List.map_cons, List.zip_cons_cons, encrypt_cons, encryptStep_decryptStep, ih,
      List.map_cons]

/-! ## The counter -/

omit [Zero β] [LawfulXor β] in
theorem carried_ctr (row : List (Equiv.Perm β × β)) : ctr.carried next v row = next^[row.length] v := by
  induction row generalizing v with
  | nil => rfl
  | cons first row ih => exact ih (next v)

omit [Zero β] [LawfulXor β] in
theorem getElem?_encrypt_ctr {row : List (Equiv.Perm β × β)} {i : Nat} {E : Equiv.Perm β} {p : β}
    (h : row[i]? = some (E, p)) :
    (ctr.encrypt next v row)[i]? = some (E (next^[i + 1] v) ^^^ p) := by
  obtain ⟨hlt, -⟩ := List.getElem?_eq_some_iff.mp h
  rw [getElem?_encrypt, h, carried_ctr, List.length_take_of_le hlt.le, Option.map_some, encryptStep,
    Function.iterate_succ_apply']

/-- Two cipher blocks of one permutation differ as their plain blocks do exactly when the counter
stands where it stood. -/
theorem ctr_repeats_iff {row : List (Equiv.Perm β × β)} {i j : Nat} {E : Equiv.Perm β} {p q c d : β}
    (hi : row[i]? = some (E, p)) (hj : row[j]? = some (E, q))
    (hc : (ctr.encrypt next v row)[i]? = some c) (hd : (ctr.encrypt next v row)[j]? = some d) :
    c ^^^ d = p ^^^ q ↔ next^[i + 1] v = next^[j + 1] v := by
  rw [getElem?_encrypt_ctr v hi, Option.some.injEq] at hc
  rw [getElem?_encrypt_ctr v hj, Option.some.injEq] at hd
  rw [← hc, ← hd, xor_xor_xor_comm]
  constructor
  · intro h
    have hzero := (xor_left_involutive (p ^^^ q)).injective (h.trans (zero_xor (p ^^^ q)).symm)
    exact E.injective (xor_eq_zero_iff.mp hzero)
  · intro h
    rw [h, LawfulXor.xor_self, zero_xor]

end Mode
end KuznyechikDPA.BlockModes
