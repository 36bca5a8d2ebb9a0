import Mathlib.Data.Char
import Mathlib.Data.List.Basic

/-!
# Chunk IDs

`internal/chunk/hasher.go`: the ID of a chunk is the SHA-256 sum of its bytes in hexadecimal. The
sum is any function to 32 bytes. A string is the list of its bytes, written as characters.
-/

namespace VaultFS.Chunk

abbrev ChunkID := List Char

abbrev Sum := Vector UInt8 32

/-- The two lowercase digits of a byte. -/
def hexByte (b : UInt8) : List Char := [Nat.digitChar (b.toNat / 16), Nat.digitChar (b.toNat % 16)]

/-- `hex.EncodeToString`. -/
def hexEncode (bs : List UInt8) : List Char := bs.flatMap hexByte

def idLen : ℕ := 32 * 2

def isLowerHex (c : Char) : Bool := ('0' ≤ c && c ≤ '9') || ('a' ≤ c && c ≤ 'f')

/-- Exactly 64 lowercase hexadecimal characters. -/
def Valid (id : ChunkID) : Prop := id.length = idLen ∧ ∀ c ∈ id, isLowerHex c = true

-- By the characters of the ID, and not by all there are.
instance (id : ChunkID) : Decidable (Valid id) :=
  decidable_of_iff (id.length = idLen ∧ id.all isLowerHex = true)
    (and_congr_right' List.all_eq_true)

section Sum

variable (sum256 : List UInt8 → Sum)

def hash (data : List UInt8) : ChunkID := hexEncode (sum256 data).toList

def verify (id : ChunkID) (data : List UInt8) : Option String :=
  let got := hash sum256 data
  if got ≠ id then
    some ("chunk: SHA-256 mismatch, data corrupted: want " ++ String.ofList id ++ ", got " ++
      String.ofList got)
  else none

end Sum

theorem isLowerHex_digitChar {n : ℕ} (h : n < 16) : isLowerHex (Nat.digitChar n) = true := by
  have hall : ∀ n : Fin 16, isLowerHex (Nat.digitChar n) = true := by decide
  exact hall ⟨n, h⟩

theorem length_hexEncode (bs : List UInt8) : (hexEncode bs).length = bs.length * 2 := by
  induction bs with
  | nil => rfl
  | cons b bs ih =>
      simp only [hexEncode, List.flatMap_cons, List.length_append, List.length_cons] at ih ⊢
      rw [ih, hexByte]
      simp only [List.length_cons, List.length_nil]
      omega

theorem isLowerHex_of_mem_hexEncode {bs : List UInt8} {c : Char} (h : c ∈ hexEncode bs) :
    isLowerHex c = true := by
  obtain ⟨b, -, hc⟩ := List.mem_flatMap.mp h
  have hb : b.toNat < 256 := b.toNat_lt
  rcases List.mem_pair.mp hc with rfl | rfl
  · exact isLowerHex_digitChar (by omega)
  · exact isLowerHex_digitChar (by omega)

theorem valid_hash (sum256 : List UInt8 → Sum) (data : List UInt8) : Valid (hash sum256 data) := by
  refine ⟨?_, fun c hc => isLowerHex_of_mem_hexEncode hc⟩
  rw [hash, length_hexEncode, Vector.length_toList, idLen]

theorem Valid.notMem {id : ChunkID} (h : Valid id) {c : Char} (hc : isLowerHex c = false) :
    c ∉ id := by
  intro hmem
  rw [h.2 c hmem] at hc
  cases hc

theorem verify_eq_none {sum256 : List UInt8 → Sum} {id : ChunkID} {data : List UInt8}
    (h : verify sum256 id data = none) : hash sum256 data = id := by
  unfold verify at h
  by_contra hne
  simp [hne] at h

end VaultFS.Chunk
