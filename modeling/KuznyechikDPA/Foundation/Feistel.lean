import KuznyechikDPA.Foundation.Xor

/-!
# Feistel networks

A step adds a function of the first half to the second one and exchanges the halves. Whatever
the function is, the step can be taken back, and so can a network of steps.
-/

namespace KuznyechikDPA.Feistel

universe u
variable {α : Type u} [XorOp α]

def round (f : α → α) (a : α × α) : α × α := (f a.1 ^^^ a.2, a.1)

def unround (f : α → α) (a : α × α) : α × α := (a.2, f a.2 ^^^ a.1)

/-- The first `n` steps, with a function of its own for each. -/
def network (f : Nat → α → α) : Nat → α × α → α × α
  | 0, a => a
  | n + 1, a => round (f n) (network f n a)

variable [Zero α] [LawfulXor α]

theorem unround_round (f : α → α) : Function.LeftInverse (unround f) (round f) :=
  fun a => Prod.ext rfl (xor_cancel_left (f a.1) a.2)

theorem round_unround (f : α → α) : Function.RightInverse (unround f) (round f) :=
  fun a => Prod.ext (xor_cancel_left (f a.2) a.1) rfl

theorem round_bijective (f : α → α) : Function.Bijective (round f) :=
  ⟨(unround_round f).injective, (round_unround f).surjective⟩

theorem network_bijective (f : Nat → α → α) (n : Nat) : Function.Bijective (network f n) := by
  induction n with
  | zero => exact Function.bijective_id
  | succ n ih => exact (round_bijective (f n)).comp ih

end KuznyechikDPA.Feistel
