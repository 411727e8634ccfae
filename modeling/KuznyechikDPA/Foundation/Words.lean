import KuznyechikDPA.Foundation.ByteField

/-!
# Words as tuples of bytes

`toBytes` reads a word of `8 * n` bits as `n` bytes, most significant first, and
`ofBytes` puts them together again. The two are inverse and respect exclusive or.
-/

namespace KuznyechikDPA

variable {n : Nat}

/-- Byte `i` of a word, counted from the most significant one. -/
def toBytes (x : BitVec (8 * n)) : Fin n → Byte := fun i => x.extractLsb' (8 * (n - 1 - i)) 8

theorem eight_add_mul (n : Nat) : 8 + 8 * n = 8 * (n + 1) := by omega

theorem slice_slice {w : Nat} (x : BitVec w) (start len : Nat) {s l : Nat} (h : s + l ≤ len) :
    (x.extractLsb' start len).extractLsb' s l = x.extractLsb' (start + s) l := by
  apply BitVec.eq_of_getLsbD_eq
  intro j hj
  have hs : s + j < len := by omega
  simp only [BitVec.getLsbD_extractLsb', hj, hs, Nat.add_assoc, decide_true, Bool.true_and]

def ofBytes : {n : Nat} → (Fin n → Byte) → BitVec (8 * n)
  | 0, _ => 0
  | n + 1, f => (f ⟨0, n.succ_pos⟩ ++ ofBytes fun i : Fin n => f i.succ).cast (eight_add_mul n)

theorem getLsbD_ofBytes (f : Fin n → Byte) (i : Fin n) (j : Nat) (hj : j < 8) :
    (ofBytes f).getLsbD (8 * (n - 1 - i) + j) = (f i).getLsbD j := by
  induction n with
  | zero => exact i.elim0
  | succ n ih =>
    rw [ofBytes, BitVec.getLsbD_cast, BitVec.getLsbD_append]
    cases i using Fin.cases with
    | zero =>
      have hpos : 8 * (n + 1 - 1 - (0 : Fin (n + 1)).val) + j = 8 * n + j := by simp
      rw [hpos, if_neg (by omega), Nat.add_sub_cancel_left]
      rfl
    | succ i =>
      have hpos : 8 * (n + 1 - 1 - i.succ.val) + j = 8 * (n - 1 - i) + j := by
        simp only [Fin.val_succ]
        omega
      have hi := i.isLt
      rw [hpos, if_pos (by omega)]
      exact ih (fun i => f i.succ) i

theorem toBytes_ofBytes (f : Fin n → Byte) : toBytes (ofBytes f) = f := by
  funext i
  apply BitVec.eq_of_getLsbD_eq
  intro j hj
  rw [toBytes, BitVec.getLsbD_extractLsb', getLsbD_ofBytes f i j hj]
  simp [hj]

theorem toBytes_injective : Function.Injective (toBytes (n := n)) := by
  intro x y h
  apply BitVec.eq_of_getLsbD_eq
  intro j hj
  have hi : n - 1 - j / 8 < n := by omega
  have hbyte := congrArg (fun b => b.getLsbD (j % 8)) (congrFun h ⟨n - 1 - j / 8, hi⟩)
  have hpos : 8 * (n - 1 - (n - 1 - j / 8)) + j % 8 = j := by omega
  have hmod : j % 8 < 8 := Nat.mod_lt j (by omega)
  simpa only [toBytes, BitVec.getLsbD_extractLsb', hpos, hmod, decide_true, Bool.true_and]
    using hbyte

theorem ofBytes_toBytes (x : BitVec (8 * n)) : ofBytes (toBytes x) = x :=
  toBytes_injective (toBytes_ofBytes (toBytes x))

theorem xorHom_toBytes : XorHom (toBytes (n := n)) :=
  XorHom.pi fun i => xorHom_extractLsb' (8 * (n - 1 - i)) 8

end KuznyechikDPA
