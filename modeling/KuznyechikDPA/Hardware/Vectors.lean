import KuznyechikDPA.Foundation.Words

/-!
# 128-bit vectors and their byte slices

The packages work on `std_logic_vector(127 downto 0)` and assign it slice by slice. A
slice of eight bits is a byte of `bytes`, which counts from the most significant one.
-/

namespace KuznyechikDPA

/-- `std_logic_vector(127 downto 0)`. -/
abbrev Block := BitVec 128

/-- The byte slices of a vector, the most significant first. -/
def bytes (v : Block) : Fin 16 → Byte := toBytes v

/-- The vector assembled from sixteen slice assignments. -/
def block (s : Fin 16 → Byte) : Block := ofBytes s

@[simp] theorem bytes_block (s : Fin 16 → Byte) : bytes (block s) = s := toBytes_ofBytes s

theorem bytes_injective : Function.Injective bytes := toBytes_injective (n := 16)

@[simp] theorem block_bytes (v : Block) : block (bytes v) = v := ofBytes_toBytes (n := 16) v

theorem block_injective : Function.Injective block := Function.LeftInverse.injective bytes_block

@[simp] theorem bytes_xor (v w : Block) : bytes (v ^^^ w) = bytes v ^^^ bytes w :=
  xorHom_toBytes (n := 16) v w

theorem block_xor (s k : Fin 16 → Byte) : block (fun i => s i ^^^ k i) = block s ^^^ block k := by
  apply bytes_injective
  rw [bytes_xor, bytes_block, bytes_block, bytes_block]
  rfl

theorem xorHom_of_bytes {f : Block → Block} {g : (Fin 16 → Byte) → Fin 16 → Byte} (hg : XorHom g)
    (h : ∀ v, bytes (f v) = g (bytes v)) : XorHom f := by
  intro v w
  apply bytes_injective
  simp only [bytes_xor, h, hg (bytes v) (bytes w)]

end KuznyechikDPA
