import KuznyechikDPA.Firmware.AvrConformance
import KuznyechikDPA.Firmware.StraightforwardAes
import KuznyechikDPA.Firmware.TinyAes

/-!
# The interface `aes-independant.h`

A program calls `aes_indep_key` and `aes_indep_enc` and does not know which of the branches of
`aes-independant.c` it is linked with. The globals of a branch are a type of its own; what they hold
before the first key is arbitrary.
-/

namespace KuznyechikDPA.AesIndependant
open AesStandard (KeySize)

universe u

/-- `aes_indep_init`, `aes_indep_key` and `aes_indep_enc` of one branch. -/
structure AesIndep (σ : Type u) where
  init : σ → σ
  key : (Nat → Byte) → σ → σ
  enc : State → σ → σ × State

/-! ## The branches -/

/-- `AVRCRYPTOLIB`, over the global `ctx`. -/
def avrcryptolib : AesIndep AvrCryptoLib.Ctx where
  init ctx := ctx
  key := AvrCryptoLib.aes128Init
  enc pt ctx := (ctx, AvrCryptoLib.aes128Enc pt ctx)

/-- `enckey` and the arrays of `aes.c`. -/
structure SimpleGlobals extends StraightforwardAes.Globals where
  enckey : State

/-- `SIMPLEAES`. -/
def simpleaes : AesIndep SimpleGlobals where
  init g := g
  key k g := { g with enckey := fun i => k i }
  enc pt g :=
    let result := StraightforwardAes.aes pt g.enckey
    ({ g with toGlobals := result }, result.state)

/-- `TINYAES128C`, over the array `RoundKey`. -/
def tinyaes128c : AesIndep (Nat → Byte) where
  init RoundKey := RoundKey
  key := TinyAes.ecbIndpSetkey
  enc pt RoundKey := (RoundKey, TinyAes.ecbIndpCrypto RoundKey pt)

/-! ## What a program may rely on -/

/-- Globals that hold a key encrypt under it, and go on holding it. -/
structure Conforms {σ : Type u} (aes : AesIndep σ) (Keyed : (Nat → Byte) → σ → Prop) : Prop where
  init : ∀ k s, Keyed k s → Keyed k (aes.init s)
  key : ∀ k s, Keyed k (aes.key k s)
  enc : ∀ k s pt, Keyed k s → (aes.enc pt s).2 = KeySize.aes128.cipher k pt
  keeps : ∀ k s pt, Keyed k s → Keyed k (aes.enc pt s).1

theorem avrcryptolib_key (k : Nat → Byte) (ctx : AvrCryptoLib.Ctx) :
    avrcryptolib.key k ctx = AvrCryptoLib.aes128Init k ctx := by rw [avrcryptolib]

theorem avrcryptolib_enc (pt : State) (ctx : AvrCryptoLib.Ctx) :
    avrcryptolib.enc pt ctx = (ctx, AvrCryptoLib.aes128Enc pt ctx) := by rw [avrcryptolib]

theorem tinyaes128c_key (k RoundKey : Nat → Byte) :
    tinyaes128c.key k RoundKey = TinyAes.ecbIndpSetkey k RoundKey := by rw [tinyaes128c]

theorem tinyaes128c_enc (pt : State) (RoundKey : Nat → Byte) :
    tinyaes128c.enc pt RoundKey = (RoundKey, TinyAes.ecbIndpCrypto RoundKey pt) := by rw [tinyaes128c]

theorem conforms_avrcryptolib :
    Conforms avrcryptolib fun k ctx => ∃ before, ctx = AvrCryptoLib.aes128Init k before where
  init _ _ h := h
  key k before := by
    rw [avrcryptolib_key]
    exact ⟨before, rfl⟩
  enc k ctx pt h := by
    obtain ⟨before, hctx⟩ := h
    rw [avrcryptolib_enc, hctx, AvrCryptoLib.aes128Enc_aes128Init]
  keeps k ctx pt h := by rwa [avrcryptolib_enc]

theorem conforms_simpleaes : Conforms simpleaes fun k g => ∀ i : Fin 16, g.enckey i = k i where
  init _ _ h := h
  key _ _ _ := rfl
  enc k g pt h := by
    have hkey : KeySize.aes128.cipher (StraightforwardAes.keyBytes g.enckey) pt =
        KeySize.aes128.cipher k pt := by
      refine KeySize.cipher_congr (fun n hn => ?_) pt
      have hlow : n < 16 := hn
      rw [StraightforwardAes.keyBytes, h, Fin.val_ofNat, Nat.mod_eq_of_lt hlow]
    have hresult := congrArg StraightforwardAes.Globals.state (StraightforwardAes.aes_eq pt g.enckey)
    exact hresult.trans hkey
  keeps _ _ _ h := h

theorem conforms_tinyaes128c :
    Conforms tinyaes128c fun k RoundKey => ∃ before, RoundKey = TinyAes.ecbIndpSetkey k before where
  init _ _ h := h
  key k before := by
    rw [tinyaes128c_key]
    exact ⟨before, rfl⟩
  enc k RoundKey pt h := by
    obtain ⟨before, hkey⟩ := h
    rw [tinyaes128c_enc, hkey, TinyAes.ecbIndpCrypto, TinyAes.ecbIndpSetkey, TinyAes.cipher_keyExpansion]
  keeps k RoundKey pt h := by rwa [tinyaes128c_enc]

/-! ## Sessions -/

inductive Call where
  | key (k : Nat → Byte)
  | enc (pt : State)

/-- The blocks that a row of calls leaves in `pt`. -/
def AesIndep.session {σ : Type u} (aes : AesIndep σ) : σ → List Call → List State
  | _, [] => []
  | s, .key k :: calls => aes.session (aes.key k s) calls
  | s, .enc pt :: calls => (aes.enc pt s).2 :: aes.session (aes.enc pt s).1 calls

/-- Encryption under the latest key. -/
def standardSession (k : Nat → Byte) : List Call → List State
  | [] => []
  | .key k :: calls => standardSession k calls
  | .enc pt :: calls => KeySize.aes128.cipher k pt :: standardSession k calls

theorem Conforms.session_enc {σ : Type u} {aes : AesIndep σ} {Keyed : (Nat → Byte) → σ → Prop}
    (h : Conforms aes Keyed) {k : Nat → Byte} {s : σ} (hkeyed : Keyed k s) (calls : List Call) :
    aes.session s calls = standardSession k calls := by
  induction calls generalizing k s with
  | nil => rfl
  | cons call calls ih =>
    cases call with
    | key k' => exact ih (h.key k' s)
    | enc pt =>
      rw [AesIndep.session, standardSession, h.enc k s pt hkeyed, ih (h.keeps k s pt hkeyed)]

theorem Conforms.session_key {σ : Type u} {aes : AesIndep σ} {Keyed : (Nat → Byte) → σ → Prop}
    (h : Conforms aes Keyed) (k : Nat → Byte) (s : σ) (calls : List Call) :
    aes.session s (.key k :: calls) = standardSession k calls := by
  rw [AesIndep.session, h.session_enc (h.key k s)]

/-- The branches modelled here. -/
inductive Branch where
  | avrcryptolib
  | simpleaes
  | tinyaes128c

/-- The globals of a branch. -/
def Branch.Globals : Branch → Type
  | avrcryptolib => AvrCryptoLib.Ctx
  | simpleaes => SimpleGlobals
  | tinyaes128c => Nat → Byte

def Branch.aes : (branch : Branch) → AesIndep branch.Globals
  | avrcryptolib => AesIndependant.avrcryptolib
  | simpleaes => AesIndependant.simpleaes
  | tinyaes128c => AesIndependant.tinyaes128c

theorem Branch.conforms (branch : Branch) :
    ∃ Keyed : (Nat → Byte) → branch.Globals → Prop, Conforms branch.aes Keyed := by
  cases branch with
  | avrcryptolib => exact ⟨_, conforms_avrcryptolib⟩
  | simpleaes => exact ⟨_, conforms_simpleaes⟩
  | tinyaes128c => exact ⟨_, conforms_tinyaes128c⟩

end KuznyechikDPA.AesIndependant
