import VaultFS.Framing.Basic
import VaultFS.LittleEndian.Basic

/-!
# Log records

`internal/wal/entry.go`: an entry is an index and its data, and its record on disk is

    [8 bytes: payload length][4 bytes: checksum of the payload][payload]

with the payload `[8 bytes: index][data]` and all numbers little-endian. The checksum of the source
is `checksumIEEE`; nothing depends on it, so that everything else is about any function of the
payload. A reader is the bytes that are still to be read, and a file does not fail when it is read.

Records with a payload of at most `maxPayloadSize` bytes form a codec (`codec`); a record cut short
reads as the end of the log (`decode_of_prefix`).
-/

namespace VaultFS.Wal

open Framing LittleEndian

def lenFieldSize : ℕ := 8

def crcFieldSize : ℕ := 4

def idxFieldSize : ℕ := 8

def headerSize : ℕ := lenFieldSize + crcFieldSize

def maxPayloadSize : ℕ := 128 * 1024 * 1024

structure Entry where
  index : UInt64
  data : List UInt8
  deriving DecidableEq

inductive DecodeError where
  /-- `io.EOF`. -/
  | eof
  | header
  | tooLarge (payloadLen : ℕ)
  | tooSmall (payloadLen : ℕ)
  | payload
  /-- `ErrChecksumMismatch`. -/
  | checksumMismatch
  deriving DecidableEq

namespace DecodeError

def message : DecodeError → String
  | eof => "EOF"
  | header => "wal: decode header: unexpected EOF"
  | tooLarge n => "wal: decode: payload length " ++ toString n ++ " exceeds maximum"
  | tooSmall n => "wal: decode: payload length " ++ toString n ++ " too small to contain index"
  | payload => "wal: decode payload: unexpected EOF"
  | checksumMismatch => "wal: CRC32 checksum mismatch"

/-- The error is `io.EOF`, or wraps `io.ErrUnexpectedEOF` or `ErrChecksumMismatch`. -/
def endsLog : DecodeError → Bool
  | tooLarge _ | tooSmall _ => false
  | _ => true

/-- The error of a record that goes on behind the bytes that were read. -/
def truncated : DecodeError → Bool
  | eof | header | payload => true
  | _ => false

end DecodeError

/-- One step of the division by the polynomial of CRC-32, with the bits in reverse. -/
def crcShift (crc : UInt32) : UInt32 :=
  if crc &&& 1 = 1 then (crc >>> 1) ^^^ 0xEDB88320 else crc >>> 1

/-- The checksum of `crc32.ChecksumIEEE`. -/
def checksumIEEE (bs : List UInt8) : UInt32 :=
  bs.foldl (fun crc b => Nat.iterate crcShift 8 (crc ^^^ b.toUInt32)) 0xFFFFFFFF ^^^ 0xFFFFFFFF

-- The check value of the algorithm, for the text "123456789".
example : checksumIEEE [49, 50, 51, 52, 53, 54, 55, 56, 57] = 0xCBF43926 := by decide +kernel

/-- The size of a record with so many bytes of data. -/
def encodedSize (dataLen : ℕ) : ℕ := headerSize + idxFieldSize + dataLen

def Entry.payload (e : Entry) : List UInt8 := bytes idxFieldSize e.index.toNat ++ e.data

/-- The entry of a payload. -/
def Entry.ofPayload (payload : List UInt8) : Entry :=
  ⟨UInt64.ofNat (value (payload.take idxFieldSize)), payload.drop idxFieldSize⟩

/-- The record of the entry can be read back. -/
def Entry.Fits (e : Entry) : Prop := idxFieldSize + e.data.length ≤ maxPayloadSize

instance (e : Entry) : Decidable e.Fits := inferInstanceAs (Decidable (_ ≤ _))

@[simp] theorem Entry.length_payload (e : Entry) :
    e.payload.length = idxFieldSize + e.data.length := by simp [payload]

theorem Entry.ofPayload_payload (e : Entry) : ofPayload e.payload = e := by
  have hidx : value (bytes idxFieldSize e.index.toNat) = e.index.toNat :=
    value_bytes_of_lt e.index.toNat_lt
  simp [ofPayload, payload, hidx]

theorem Entry.payload_ofPayload {p : List UInt8} (h : idxFieldSize ≤ p.length) :
    (ofPayload p).payload = p := by
  have hidx : (p.take idxFieldSize).length = idxFieldSize := List.length_take_of_le h
  have hindex : value (p.take idxFieldSize) < 2 ^ 64 := by
    have hlt := value_lt (p.take idxFieldSize)
    rw [hidx] at hlt
    exact hlt
  have hbytes : bytes idxFieldSize (value (p.take idxFieldSize)) = p.take idxFieldSize := by
    have := bytes_value (p.take idxFieldSize)
    rwa [hidx] at this
  simp only [ofPayload, payload, UInt64.toNat_ofNat_of_lt' hindex]
  rw [hbytes, List.take_append_drop]

section Checksum

variable (crc32 : List UInt8 → UInt32)

def encode (e : Entry) : List UInt8 :=
  bytes lenFieldSize e.payload.length ++ bytes crcFieldSize (crc32 e.payload).toNat ++ e.payload

/-- The part of `Decode` after the header. -/
def decodePayload (payloadLen storedCRC : ℕ) (r : List UInt8) :
    Except DecodeError (Entry × List UInt8) :=
  if maxPayloadSize < payloadLen then .error (.tooLarge payloadLen)
  else if payloadLen < idxFieldSize then .error (.tooSmall payloadLen)
  else if r.length < payloadLen then .error .payload
  else
    let payload := r.take payloadLen
    if (crc32 payload).toNat ≠ storedCRC then .error .checksumMismatch
    else .ok (.ofPayload payload, r.drop payloadLen)

def decode (r : List UInt8) : Except DecodeError (Entry × List UInt8) :=
  if r = [] then .error .eof
  else if r.length < headerSize then .error .header
  else
    let header := r.take headerSize
    decodePayload crc32 (value (header.take lenFieldSize)) (value (header.drop lenFieldSize))
      (r.drop headerSize)

variable {crc32}

theorem length_encode (e : Entry) : (encode crc32 e).length = encodedSize e.data.length := by
  simp [encode, encodedSize, headerSize, Nat.add_assoc]

theorem decode_frame {len crc : List UInt8} (hlen : len.length = lenFieldSize)
    (hcrc : crc.length = crcFieldSize) (r : List UInt8) :
    decode crc32 (len ++ crc ++ r) = decodePayload crc32 (value len) (value crc) r := by
  have hheader : (len ++ crc).length = headerSize := by simp [hlen, hcrc, headerSize]
  have hne : len ++ crc ++ r ≠ [] := by
    apply List.ne_nil_of_length_pos
    rw [List.length_append, hheader, headerSize, lenFieldSize]
    omega
  have hlong : ¬ (len ++ crc ++ r).length < headerSize := by
    rw [List.length_append, hheader]
    omega
  rw [decode, if_neg hne, if_neg hlong]
  simp only [List.take_left' hheader, List.drop_left' hheader, List.take_left' hlen,
    List.drop_left' hlen]

/-- A string that holds a header is its header and the rest. -/
theorem exists_frame {r : List UInt8} (h : headerSize ≤ r.length) :
    ∃ len crc rest, r = len ++ crc ++ rest ∧ len.length = lenFieldSize ∧
      crc.length = crcFieldSize := by
  refine ⟨r.take lenFieldSize, (r.drop lenFieldSize).take crcFieldSize,
    (r.drop lenFieldSize).drop crcFieldSize, ?_, ?_, ?_⟩
  · rw [List.append_assoc, List.take_append_drop, List.take_append_drop]
  · rw [List.length_take]
    simp only [headerSize] at h
    omega
  · rw [List.length_take, List.length_drop]
    simp only [headerSize] at h
    omega

theorem decode_short {r : List UInt8} (hne : r ≠ []) (h : r.length < headerSize) :
    decode crc32 r = .error .header := by
  rw [decode, if_neg hne, if_pos h]

theorem value_payload_length {e : Entry} (h : e.Fits) :
    value (bytes lenFieldSize e.payload.length) = e.payload.length := by
  apply value_bytes_of_lt
  rw [Entry.length_payload]
  calc idxFieldSize + e.data.length ≤ maxPayloadSize := h
    _ < 256 ^ lenFieldSize := by decide

theorem decode_encode {e : Entry} (rest : List UInt8) (h : e.Fits) :
    decode crc32 (encode crc32 e ++ rest) = .ok (e, rest) := by
  have hcrc : value (bytes crcFieldSize (crc32 e.payload).toNat) = (crc32 e.payload).toNat :=
    value_bytes_of_lt (crc32 e.payload).toNat_lt
  rw [encode, List.append_assoc, decode_frame (by simp) (by simp), value_payload_length h, hcrc,
    decodePayload]
  have hmax : ¬ maxPayloadSize < e.payload.length := by
    rw [Entry.length_payload]
    exact not_lt.mpr h
  have hmin : ¬ e.payload.length < idxFieldSize := by
    rw [Entry.length_payload]
    omega
  have hall : ¬ (e.payload ++ rest).length < e.payload.length := by
    rw [List.length_append]
    omega
  rw [if_neg hmax, if_neg hmin, if_neg hall]
  simp only [List.take_left, List.drop_left, ne_eq, not_true_eq_false, if_false,
    Entry.ofPayload_payload]

theorem decodePayload_append_of_error {payloadLen storedCRC : ℕ} {r : List UInt8}
    {err : DecodeError} (h : decodePayload crc32 payloadLen storedCRC r = .error err)
    (herr : err.truncated = false) (t : List UInt8) :
    decodePayload crc32 payloadLen storedCRC (r ++ t) = .error err := by
  unfold decodePayload at h ⊢
  split at h
  · rename_i hmax
    rw [if_pos hmax]
    exact h
  · rename_i hmax
    rw [if_neg hmax]
    split at h
    · rename_i hmin
      rw [if_pos hmin]
      exact h
    · rename_i hmin
      rw [if_neg hmin]
      split at h
      · cases h
        cases herr
      · rename_i hlong
        have hle : payloadLen ≤ r.length := not_lt.mp hlong
        have hlong' : ¬ (r ++ t).length < payloadLen := by
          rw [List.length_append]
          omega
        rw [if_neg hlong']
        simp only [List.take_append_of_le_length hle, List.drop_append_of_le_length hle]
        simp only at h
        split at h
        · rename_i hcrc
          rw [if_pos hcrc]
          exact h
        · cases h

theorem of_decodePayload {payloadLen storedCRC : ℕ} {r rest : List UInt8} {e : Entry}
    (h : decodePayload crc32 payloadLen storedCRC r = .ok (e, rest)) :
    e.Fits ∧ payloadLen = e.payload.length ∧ storedCRC = (crc32 e.payload).toNat ∧
      r = e.payload ++ rest := by
  unfold decodePayload at h
  split at h
  · cases h
  · rename_i hmax
    split at h
    · cases h
    · rename_i hmin
      split at h
      · cases h
      · rename_i hlong
        simp only [ne_eq, ite_not] at h
        split at h
        · rename_i hcrc
          obtain ⟨rfl, rfl⟩ := Prod.mk.inj (Except.ok.inj h)
          have hlen : (r.take payloadLen).length = payloadLen := by
            rw [List.length_take]
            omega
          have hpayload : (Entry.ofPayload (r.take payloadLen)).payload = r.take payloadLen :=
            Entry.payload_ofPayload (by rw [hlen]; exact not_lt.mp hmin)
          refine ⟨?_, ?_, ?_, ?_⟩
          · rw [Entry.Fits, ← Entry.length_payload, hpayload, hlen]
            exact not_lt.mp hmax
          · rw [hpayload, hlen]
          · rw [hpayload, hcrc]
          · rw [hpayload, List.take_append_drop]
        · cases h

theorem of_decode {r rest : List UInt8} {e : Entry} (h : decode crc32 r = .ok (e, rest)) :
    e.Fits ∧ r = encode crc32 e ++ rest := by
  by_cases hne : r = []
  · rw [decode, if_pos hne] at h
    cases h
  · by_cases hshort : r.length < headerSize
    · rw [decode_short hne hshort] at h
      cases h
    · obtain ⟨len, crc, r', rfl, hlen, hcrc⟩ := exists_frame (not_lt.mp hshort)
      rw [decode_frame hlen hcrc] at h
      obtain ⟨hfits, hl, hc, rfl⟩ := of_decodePayload h
      refine ⟨hfits, ?_⟩
      rw [encode, ← hl, ← hc, ← hlen, ← hcrc, bytes_value, bytes_value]
      simp only [List.append_assoc]

theorem encode_ne_nil (e : Entry) : encode crc32 e ≠ [] := by
  apply List.ne_nil_of_length_pos
  rw [length_encode, encodedSize, headerSize, lenFieldSize]
  omega

variable (crc32) in
def codec : Codec UInt8 Entry DecodeError where
  encode := encode crc32
  decode := decode crc32
  Fits := Entry.Fits
  encode_ne_nil := encode_ne_nil
  decode_encode := decode_encode
  of_decode := of_decode

theorem splits_of_decode {es : List Entry} {tail : List UInt8} {err : DecodeError}
    (hfits : ∀ e ∈ es, e.Fits) (htail : decode crc32 tail = .error err) :
    (codec crc32).Splits ((codec crc32).encodeAll es ++ tail) es tail err :=
  ⟨rfl, hfits, htail⟩

/-- An error that is not about the end of the bytes stays when more bytes come. -/
theorem decode_append_of_error {s : List UInt8} {err : DecodeError}
    (h : decode crc32 s = .error err) (herr : err.truncated = false) (t : List UInt8) :
    decode crc32 (s ++ t) = .error err := by
  by_cases hnil : s = []
  · rw [decode, if_pos hnil] at h
    cases h
    cases herr
  · by_cases hshort : s.length < headerSize
    · rw [decode_short hnil hshort] at h
      cases h
      cases herr
    · obtain ⟨len, crc, r, rfl, hlen, hcrc⟩ := exists_frame (not_lt.mp hshort)
      rw [List.append_assoc, decode_frame hlen hcrc]
      rw [decode_frame hlen hcrc] at h
      exact decodePayload_append_of_error h herr t

/-- A record that was cut short reads as the end of the log. -/
theorem decode_of_prefix {e : Entry} {part : List UInt8} (h : e.Fits)
    (hpart : part <+: encode crc32 e) (hne : part ≠ encode crc32 e) :
    ∃ err, decode crc32 part = .error err ∧ err.endsLog = true := by
  by_cases hnil : part = []
  · exact ⟨.eof, if_pos hnil, rfl⟩
  · by_cases hshort : part.length < headerSize
    · exact ⟨.header, decode_short hnil hshort, rfl⟩
    · obtain ⟨len, crc, r, rfl, hlen, hcrc⟩ := exists_frame (not_lt.mp hshort)
      obtain ⟨more, hmore⟩ := hpart
      simp only [encode, List.append_assoc] at hmore
      obtain ⟨rfl, hrest⟩ := List.append_inj hmore (by simp [hlen])
      obtain ⟨rfl, hpayload⟩ := List.append_inj hrest (by simp [hcrc])
      refine ⟨.payload, ?_, rfl⟩
      rw [decode_frame hlen hcrc, value_payload_length h, decodePayload]
      have hpos : more ≠ [] := by
        rintro rfl
        exact hne (by simpa [encode] using hpayload)
      have hlt : r.length < e.payload.length := by
        rw [← hpayload, List.length_append]
        have := List.length_pos_iff.mpr hpos
        omega
      have hmax : ¬ maxPayloadSize < e.payload.length := by
        rw [Entry.length_payload]
        exact not_lt.mpr h
      have hmin : ¬ e.payload.length < idxFieldSize := by
        rw [Entry.length_payload]
        omega
      rw [if_neg hmax, if_neg hmin, if_pos hlt]

end Checksum

end VaultFS.Wal
