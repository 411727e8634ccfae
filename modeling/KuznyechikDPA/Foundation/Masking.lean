import KuznyechikDPA.Foundation.Xor

/-!
# Boolean masking

A secret word is kept as two shares, the masked word and its mask, whose exclusive or
is the secret. Key addition touches one share, a linear map both, and a substitution
takes the mask off for the lookup; each of them acts on the secret as its plain
counterpart, so a masked round that is built from them simulates the plain round.
-/

namespace KuznyechikDPA

universe u v

/-- The masked word and its mask. -/
@[ext] structure Shares (α : Type u) where
  state : α
  mask : α

namespace Shares
variable {α : Type u} [XorOp α]

def secret (p : Shares α) : α := p.state ^^^ p.mask

/-- The shares of `a` under the mask `m`. -/
def split (m a : α) : Shares α := ⟨a ^^^ m, m⟩

section Lawful
variable [Zero α] [LawfulXor α]

theorem state_eq (p : Shares α) : p.state = p.secret ^^^ p.mask := (xor_cancel_right _ _).symm

@[simp] theorem secret_split (m a : α) : (split m a).secret = a := xor_cancel_right a m

theorem secret_add (p : Shares α) (k : α) :
    secret { p with state := p.state ^^^ k } = p.secret ^^^ k :=
  xor_right_comm' p.state k p.mask

theorem secret_substitute (f : α → α) (p : Shares α) :
    secret { p with state := f (p.state ^^^ p.mask) ^^^ p.mask } = f p.secret :=
  xor_cancel_right _ _

end Lawful

theorem secret_map {β : Type v} [XorOp β] {f : α → β} (hf : XorHom f) (p : Shares α) :
    secret ⟨f p.state, f p.mask⟩ = f p.secret :=
  (hf p.state p.mask).symm

/-- A fold of masked rounds, each simulating a plain one, simulates the fold of plain rounds. -/
theorem secret_foldl {ρ : Type v} {masked : Shares α → ρ → Shares α} {plain : α → ρ → α}
    (h : ∀ p r, (masked p r).secret = plain p.secret r) (rs : List ρ) (p : Shares α) :
    (rs.foldl masked p).secret = rs.foldl plain p.secret :=
  (List.foldl_hom secret fun p r => (h p r).symm).symm

end Shares
end KuznyechikDPA
