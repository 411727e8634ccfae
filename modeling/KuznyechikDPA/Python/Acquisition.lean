import KuznyechikDPA.Foundation.HexText
import KuznyechikDPA.Foundation.TextLines

/-!
# The file of an acquisition

`Multiple_acquisitions.py` writes a line of two hexadecimal numbers for every plaintext and its
reply; `grasshopper_cpa.py` cuts the bytes out of fixed columns again. The last byte of a reply
is not written.
-/

namespace KuznyechikDPA.Acquisition

/-! ## Multiple_acquisitions.py -/

structure Lists where
  listeClairs : List Nat
  listeChiffres : List Nat

/-- `clair_decode` and `chiffre_decode` after the loop over the bytes. -/
def decode (clair : Fin 16 → Byte) (res : Fin 17 → Byte) : Nat × Nat :=
  (List.finRange 16).foldl (fun (clairDecode, chiffreDecode) i =>
    (clairDecode + (clair i).toNat <<< (8 * (15 - i.val)),
      chiffreDecode + (res i.castSucc).toNat <<< (8 * (15 - i.val)))) (0, 0)

/-- One turn of the acquisition loop. -/
def acquire (lists : Lists) (pair : (Fin 16 → Byte) × (Fin 17 → Byte)) : Lists where
  listeClairs := lists.listeClairs ++ [(decode pair.1 pair.2).1]
  listeChiffres := lists.listeChiffres ++ [(decode pair.1 pair.2).2]

/-- `"{:032x} {:032x}\n".format(clair, chiffre)`. -/
def format (clair chiffre : Nat) : List Char :=
  hexFormat 32 clair ++ [' '] ++ hexFormat 32 chiffre ++ ['\n']

/-- The text of `clair_chiffre.txt`, unless a list is too short. -/
def fichier (lists : Lists) : Option (List Char) :=
  ((List.range lists.listeClairs.length).mapM fun k => do
    let clair ← lists.listeClairs[k]?
    let chiffre ← lists.listeChiffres[k]?
    return format clair chiffre).map List.flatten

def write (pairs : List ((Fin 16 → Byte) × (Fin 17 → Byte))) : Option (List Char) :=
  fichier (pairs.foldl acquire ⟨[], []⟩)

/-! ## grasshopper_cpa.py -/

/-- `int(nb[2*g:2*g+2],16)`. -/
def byteAt (nb : List Char) (g : Nat) : Option Nat := hexNumber ((nb.drop (2 * g)).take 2)

/-- What a line adds to `pt` and `ct`. -/
def parseLine (ligne : List Char) : Option (List Nat × List Nat) := do
  let interNb := (ligne.take 66).drop 33
  let interNbBis := ligne.take 32
  let format ← (List.range 16).mapM fun g => do
    let c ← byteAt interNb g
    let p ← byteAt interNbBis g
    return (p, c)
  return (format.map Prod.fst, format.map Prod.snd)

/-- `pt` and `ct`. -/
def read (file : List Char) : Option (List (List Nat) × List (List Nat)) :=
  ((readlines file).mapM parseLine).map fun lines => (lines.map Prod.fst, lines.map Prod.snd)

/-! ## Written texts -/

variable (pairs : List ((Fin 16 → Byte) × (Fin 17 → Byte)))

/-- The bytes of the reply that are written. -/
def chiffre (res : Fin 17 → Byte) : Fin 16 → Byte := fun i => res i.castSucc

theorem decode_eq (clair : Fin 16 → Byte) (res : Fin 17 → Byte) :
    decode clair res = ((ofBytes clair).toNat, (ofBytes (chiffre res)).toNat) := by
  have hpair (l : List (Fin 16)) (a b : Nat) : l.foldl (fun (x : Nat × Nat) i =>
      (x.1 + (clair i).toNat <<< (8 * (15 - i.val)), x.2 + (res i.castSucc).toNat <<< (8 * (15 - i.val)))) (a, b) =
        ((l.map fun i => (clair i).toNat <<< (8 * (15 - i.val))).foldl (· + ·) a,
          (l.map fun i => (chiffre res i).toNat <<< (8 * (15 - i.val))).foldl (· + ·) b) := by
    induction l generalizing a b with
    | nil => rfl
    | cons i l ih => exact ih _ _
  have hsum (s : Fin 16 → Byte) :
      ((List.finRange 16).map fun i => (s i).toNat <<< (8 * (15 - i.val))).foldl (· + ·) 0 =
        (ofBytes s).toNat := by
    rw [← List.ofFn_eq_map, foldl_add_shifts (n := 16), Nat.zero_add]
  rw [decode, hpair, hsum, hsum]

theorem foldl_acquire (lists : Lists) : pairs.foldl acquire lists =
    ⟨lists.listeClairs ++ pairs.map fun x => (ofBytes x.1).toNat,
      lists.listeChiffres ++ pairs.map fun x => (ofBytes (chiffre x.2)).toNat⟩ := by
  induction pairs generalizing lists with
  | nil => simp
  | cons x pairs ih =>
    rw [List.foldl_cons, ih, acquire, decode_eq]
    simp only [List.append_assoc, List.singleton_append, List.map_cons]

/-- The columns of a line: 32 digits, a blank, 32 digits. -/
def columns (x : (Fin 16 → Byte) × (Fin 17 → Byte)) : List Char :=
  hexText x.1 ++ [' '] ++ hexText (chiffre x.2)

theorem format_eq (x : (Fin 16 → Byte) × (Fin 17 → Byte)) :
    format (ofBytes x.1).toNat (ofBytes (chiffre x.2)).toNat = columns x ++ ['\n'] := by
  rw [format, hexFormat_ofBytes (n := 15), hexFormat_ofBytes (n := 15), columns]

theorem newline_not_mem_columns (x : (Fin 16 → Byte) × (Fin 17 → Byte)) : '\n' ∉ columns x := by
  simp only [columns, List.mem_append, List.mem_singleton, not_or]
  exact ⟨⟨newline_not_mem_hexText x.1, by decide⟩, newline_not_mem_hexText (chiffre x.2)⟩

theorem write_eq : write pairs = some (pairs.flatMap fun x => columns x ++ ['\n']) := by
  have hlines : ((List.range pairs.length).mapM fun k => do
      let clair ← (pairs.map fun x => (ofBytes x.1).toNat)[k]?
      let chiffre ← (pairs.map fun x => (ofBytes (chiffre x.2)).toNat)[k]?
      return format clair chiffre) = some (pairs.map fun x => columns x ++ ['\n']) := by
    rw [mapM_range (g := fun k => columns pairs[k] ++ ['\n'])]
    · exact congrArg some (List.ofFn_getElem_eq_map pairs fun x => columns x ++ ['\n'])
    · intro k
      simp only [List.getElem?_map, List.getElem?_eq_getElem k.isLt, Option.map_some, Option.bind_eq_bind,
        Option.bind_some, format_eq]
      rfl
  rw [write, fichier, foldl_acquire]
  simp only [List.nil_append, List.length_map]
  rw [hlines]
  rfl

/-! ## Reading them -/

theorem byteAt_line (s : Fin 16 → Byte) (rest : List Char) (i : Fin 16) :
    byteAt (hexText s ++ rest) i = some (s i).toNat := by
  have hlength := length_hexText s
  rw [byteAt, List.drop_append_of_le_length (by omega), List.take_append_of_le_length, slice_hexText, hexNumber_byte]
  rw [List.length_drop]
  omega

theorem parseLine_columns (x : (Fin 16 → Byte) × (Fin 17 → Byte)) :
    parseLine (columns x ++ ['\n']) =
      some (List.ofFn fun i => (x.1 i).toNat, List.ofFn fun i => (chiffre x.2 i).toNat) := by
  have hp := length_hexText x.1
  have hc := length_hexText (chiffre x.2)
  have hclair : (columns x ++ ['\n']).take 32 = hexText x.1 := by
    rw [columns, List.append_assoc, List.append_assoc]
    exact List.take_left' hp
  have hchiffre : ((columns x ++ ['\n']).take 66).drop 33 = hexText (chiffre x.2) ++ ['\n'] := by
    have hlength : (hexText x.1 ++ [' ']).length = 33 := by rw [List.length_append, hp]; rfl
    rw [List.take_of_length_le (by rw [columns, List.length_append, List.length_append, hlength, hc]; rfl),
      columns, List.append_assoc _ _ ['\n']]
    exact List.drop_left' hlength
  rw [parseLine, hclair, hchiffre]
  have hbytes (i : Fin 16) : (do
      let c ← byteAt (hexText (chiffre x.2) ++ ['\n']) i
      let p ← byteAt (hexText x.1) i
      return (p, c)) = some ((x.1 i).toNat, (chiffre x.2 i).toNat) := by
    have hbis := byteAt_line x.1 [] i
    rw [List.append_nil] at hbis
    rw [byteAt_line, hbis]
    rfl
  rw [mapM_range hbytes]
  simp only [Option.bind_eq_bind, Option.bind_some, List.map_ofFn]
  rfl

/-- Whatever the bytes are, the lists read back are those of the plaintexts and of the first sixteen
bytes of the replies, in the order of the acquisition. -/
theorem read_write : (write pairs).bind read =
    some (pairs.map fun x => List.ofFn fun i => (x.1 i).toNat,
      pairs.map fun x => List.ofFn fun i => (chiffre x.2 i).toNat) := by
  rw [write_eq, Option.bind_some, read, readlines_flatMap newline_not_mem_columns, List.mapM_map]
  have hlines := mapM_eq_map (f := parseLine ∘ fun x => columns x ++ ['\n']) parseLine_columns pairs
  rw [hlines, Option.map_some, List.map_map, List.map_map]
  rfl

end KuznyechikDPA.Acquisition
