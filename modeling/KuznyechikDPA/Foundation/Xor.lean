import Mathlib.Data.LawfulXor.Equiv
import Mathlib.Data.BitVec
import Mathlib.Logic.Function.Iterate
import Mathlib.Algebra.BigOperators.Group.List.Basic

/-!
# Exclusive or on words, and the maps that respect it

Tuples of words carry the pointwise operation. A map is an `XorHom` when it
sends exclusive or to exclusive or; the linear layers of a cipher are such maps,
and everything a Boolean mask needs of them is in this file.
-/

namespace KuznyechikDPA

universe u v w

section Tuple
variable {ι : Type u} {α : Type v} [XorOp α]

instance instXorOpTuple : XorOp (ι → α) := ⟨fun f g i => f i ^^^ g i⟩

@[simp] theorem tuple_xor_apply (f g : ι → α) (i : ι) : (f ^^^ g) i = f i ^^^ g i := rfl

instance instLawfulXorTuple [Zero α] [LawfulXor α] : LawfulXor (ι → α) where
  xor_assoc f g h := funext fun i => xor_assoc (f i) (g i) (h i)
  xor_self f := funext fun i => xor_self (f i)
  xor_zero f := funext fun i => xor_zero (f i)
  xor_comm f g := funext fun i => xor_comm (f i) (g i)

end Tuple

section Laws
variable {α : Type u} [XorOp α] [Zero α] [LawfulXor α]

theorem xor_left_comm' (a b c : α) : a ^^^ (b ^^^ c) = b ^^^ (a ^^^ c) := by
  rw [← xor_assoc, xor_comm a b, xor_assoc]

theorem xor_xor_xor_comm (a b c d : α) : (a ^^^ b) ^^^ (c ^^^ d) = (a ^^^ c) ^^^ (b ^^^ d) := by
  rw [xor_assoc, xor_left_comm' b c d, ← xor_assoc]

theorem xor_right_comm' (a b c : α) : (a ^^^ b) ^^^ c = (a ^^^ c) ^^^ b := by
  rw [xor_assoc, xor_comm b c, ← xor_assoc]

theorem xor_left_inj' {a b c : α} : a ^^^ c = b ^^^ c ↔ a = b :=
  ⟨fun h => (xor_left_involutive c).injective h, fun h => by rw [h]⟩

end Laws

/-- A map between words that sends exclusive or to exclusive or. -/
def XorHom {α : Type u} {β : Type v} [XorOp α] [XorOp β] (f : α → β) : Prop :=
  ∀ x y, f (x ^^^ y) = f x ^^^ f y

namespace XorHom
variable {α : Type u} {β : Type v} {γ : Type w} [XorOp α] [XorOp β] [XorOp γ]

theorem id : XorHom (fun x : α => x) := fun _ _ => rfl

theorem comp {g : β → γ} {f : α → β} (hg : XorHom g) (hf : XorHom f) : XorHom (g ∘ f) := by
  intro x y
  simp only [Function.comp, hf x y, hg (f x) (f y)]

theorem iterate {f : α → α} (hf : XorHom f) (n : Nat) : XorHom f^[n] := by
  induction n with
  | zero => exact id
  | succ n ih =>
    rw [Function.iterate_succ]
    exact ih.comp hf

theorem apply {ι : Type u} (i : ι) : XorHom (fun f : ι → α => f i) := fun _ _ => rfl

theorem pi {ι : Type v} {f : α → ι → β} (hf : ∀ i, XorHom fun x => f x i) : XorHom f :=
  fun x y => funext fun i => hf i x y

section Lawful
variable [Zero α] [LawfulXor α] [Zero β] [LawfulXor β]

theorem map_zero {f : α → β} (hf : XorHom f) : f 0 = 0 := by
  have h := hf 0 0
  rw [xor_zero] at h
  rw [h, LawfulXor.xor_self]

omit [Zero α] [LawfulXor α] in
theorem xor {f g : α → β} (hf : XorHom f) (hg : XorHom g) : XorHom fun x => f x ^^^ g x := by
  intro x y
  simp only [hf x y, hg x y]
  exact xor_xor_xor_comm _ _ _ _

end Lawful

theorem of_inverse {f : α → β} {g : β → α} (hf : XorHom f) (hl : Function.LeftInverse g f)
    (hr : Function.RightInverse g f) : XorHom g := by
  intro x y
  have h : f (g x ^^^ g y) = x ^^^ y := by rw [hf, hr x, hr y]
  rw [← h, hl]

end XorHom

/-! ## What a map changes -/

section Change
variable {α : Type u} [XorOp α]

def change (f : α → α) (v : α) : α := v ^^^ f v

variable [Zero α] [LawfulXor α] {f : α → α}

theorem change_change (hf : XorHom f) (v : α) : change f (change f v) = change (f ∘ f) v := by
  rw [change, change, change, hf, xor_assoc, ← xor_assoc (f v), LawfulXor.xor_self, xor_comm 0,
    xor_zero]
  rfl

/-- A linear map that fixes zero only changes different words differently. -/
theorem change_injective (hf : XorHom f) (hfix : ∀ v, f v = v → v = 0) :
    Function.Injective (change f) := by
  intro v w h
  have hlinear : change f (v ^^^ w) = change f v ^^^ change f w := XorHom.id.xor hf v w
  have hfixed : f (v ^^^ w) = v ^^^ w := by
    rw [h, LawfulXor.xor_self, change] at hlinear
    have hcancel := congrArg (fun u => u ^^^ f (v ^^^ w)) hlinear
    rw [xor_cancel_right, xor_comm 0, xor_zero] at hcancel
    exact hcancel.symm
  have hzero := congrArg (fun u => u ^^^ w) (hfix _ hfixed)
  rwa [xor_cancel_right, xor_comm 0, xor_zero] at hzero

/-- In characteristic two the change of a `2 ^ n`-fold iterate is an iterate of the change. -/
theorem change_iterate_injective (hf : XorHom f) (hfix : ∀ v, f v = v → v = 0) (n : Nat) :
    Function.Injective (change f^[2 ^ n]) := by
  induction n with
  | zero => exact change_injective hf hfix
  | succ n ih =>
    have hsquare : f^[2 ^ (n + 1)] = f^[2 ^ n] ∘ f^[2 ^ n] := by
      rw [← Function.iterate_add, Nat.pow_succ, Nat.mul_two]
    have htwice : change f^[2 ^ (n + 1)] = change f^[2 ^ n] ∘ change f^[2 ^ n] := by
      funext v
      rw [hsquare]
      exact (change_change (hf.iterate (2 ^ n)) v).symm
    rw [htwice]
    exact ih.comp ih

end Change

section Words
variable {m n : Nat}

theorem xorHom_extractLsb' (start len : Nat) :
    XorHom fun x : BitVec n => x.extractLsb' start len := fun _ _ => BitVec.extractLsb'_xor

theorem xorHom_shiftLeft (k : Nat) : XorHom fun x : BitVec n => x <<< k :=
  fun x y => BitVec.shiftLeft_xor_distrib x y k

/-- Choosing between a fixed word and nothing by one bit of the argument. -/
theorem xorHom_select {α : Type u} [XorOp α] {bit : α → Bool}
    (hbit : ∀ x y, bit (x ^^^ y) = (bit x ^^ bit y)) (c : BitVec n) :
    XorHom fun x => if bit x then c else 0 := by
  intro x y
  simp only [hbit]
  cases bit x <;> cases bit y <;> simp

end Words

end KuznyechikDPA
