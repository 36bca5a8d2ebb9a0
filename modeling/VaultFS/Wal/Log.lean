import VaultFS.Wal.Segment

/-!
# The write-ahead log

`internal/wal/wal.go` and `internal/wal/recovery.go`. `Open` and `ReadAll` read the directory
without faults, and nothing else runs meanwhile. `Append` and `Close` are programs: their calls to
the file system come one after the other under the mutex, and may fail or be the last ones before a
crash. The directory itself exists, and the observer of `Append` is left out.

`replayFile` is exact: it returns the records at the front of the file up to the first rest from
which no record can be read, if that rest ends the log (`replayFrom_of_splits`), and a file that is
cut where the rest begins reads in the same way (`replayFile_exact`).
-/

namespace VaultFS.Wal

open Framing Interaction KeyValue

/-- The log. Its segments are the older ones and the active one behind them. -/
structure WAL where
  older : List Segment
  active : Segment
  lastIdx : UInt64
  maxSegSz : ℤ
  deriving DecidableEq

def WAL.segments (w : WAL) : List Segment := w.older ++ [w.active]

/-- The larger one of the last index and the entry's index. -/
def advance (lastIdx : UInt64) (e : Entry) : UInt64 :=
  if lastIdx < e.index then e.index else lastIdx

section Checksum

variable (crc32 : List UInt8 → UInt32)

/-- The loop of `replayFile` over the bytes that are left. -/
def replayFrom (r : List UInt8) (entries : List Entry) (offset : ℕ) :
    Except String (List Entry × ℕ) :=
  match _h : (codec crc32).decode r with
  | .error decErr =>
      if decErr.endsLog then .ok (entries, offset)
      else .error ("wal: replay decode: " ++ decErr.message)
  | .ok (entry, rest) =>
      replayFrom rest (entries ++ [entry]) (offset + encodedSize entry.data.length)
termination_by r.length
decreasing_by exact Codec.length_lt_of_decode _h

def replayFile (dir : Dir) (path : List Char) : Except String (List Entry × ℕ) :=
  match get dir path with
  | none => .error ("wal: open for replay " ++ (String.ofList path).quote ++
      ": no such file or directory")
  | some content => replayFrom crc32 content [] 0

/-- The loop of `recover` over the segment files that are left. -/
def recoverFrom (maxSegSz : ℤ) (dir : Dir) (older : List Segment) (lastIdx : UInt64) :
    List (List Char) → Except String (Dir × WAL)
  | [] =>
      -- There was no segment at all.
      match createFile dir (segmentPath 1) with
      | none => .error "wal: create initial segment: wal: create segment 1: file exists"
      | some dir => .ok (dir, ⟨older, .created 1, lastIdx, maxSegSz⟩)
  | path :: rest => do
      let id ← segmentIDFromPath path
      let (entries, validEnd) ← (replayFile crc32 dir path).mapError fun err =>
        "wal: replay " ++ (String.ofList path).quote ++ ": " ++ err
      let lastIdx := entries.foldl advance lastIdx
      if rest = [] then
        let (dir, seg) ← (openSegmentForWrite dir path id validEnd).mapError fun err =>
          "wal: open active segment: " ++ err
        return (dir, ⟨older, seg, lastIdx, maxSegSz⟩)
      else
        match get dir path with
        | none => .error ("wal: stat " ++ (String.ofList path).quote ++
            ": no such file or directory")
        | some content =>
            recoverFrom maxSegSz dir (older ++ [⟨id, path, false, content.length⟩]) lastIdx rest

/-- The names that match `*.wal`, in order. -/
def glob (dir : Dir) : List (List Char) :=
  ((scan dir []).map (·.1)).filter fun name => walSuffix.isSuffixOf name

/-- `Open` with the option `WithMaxSegmentSize`. -/
def openLog (maxSegSz : ℤ) (dir : Dir) : Except String (Dir × WAL) :=
  recoverFrom crc32 maxSegSz dir [] 0 (glob dir)

/-- The loop of `ReadAll` over the segments that are left. -/
def readFrom (dir : Dir) (all : List Entry) : List Segment → Except String (List Entry)
  | [] => .ok all
  | seg :: segs =>
      match replayFile crc32 dir seg.path with
      | .error err => .error ("wal: read segment " ++ toString seg.id.toNat ++ ": " ++ err)
      | .ok (entries, _) => readFrom dir (all ++ entries) segs

namespace WAL

def readAll (w : WAL) (dir : Dir) : Except String (List Entry) := readFrom crc32 dir [] w.segments

def rotate (w : WAL) : Act (WAL × Option String) := do
  let (active, err) ← w.active.close
  match err with
  | some err => return ({ w with active }, some ("wal: rotate close: " ++ err))
  | none =>
      match ← createSegment (active.id + 1) with
      | .error err => return ({ w with active }, some ("wal: rotate create: " ++ err))
      | .ok seg => return ({ w with older := w.older ++ [active], active := seg }, none)

/-- The record would make the active segment too large. -/
def Exceeds (w : WAL) (e : Entry) : Prop := w.maxSegSz < w.active.size + (encode crc32 e).length

instance (w : WAL) (e : Entry) : Decidable (w.Exceeds crc32 e) :=
  inferInstanceAs (Decidable (_ < _))

/-- The part of `Append` after the rotation. -/
def appendActive (w : WAL) (e : Entry) : Act (WAL × Option String) := do
  let (active, err) ← w.active.write (encode crc32 e)
  let w := { w with active }
  match err with
  | some err => return (w, some err)
  | none =>
      match ← w.active.sync with
      | some err => return (w, some err)
      | none => return ({ w with lastIdx := advance w.lastIdx e }, none)

def append (w : WAL) (e : Entry) : Act (WAL × Option String) :=
  if w.Exceeds crc32 e then do
    let (w, err) ← w.rotate
    match err with
    | some err => return (w, some err)
    | none => w.appendActive crc32 e
  else w.appendActive crc32 e

def close (w : WAL) : Act (WAL × Option String) := do
  let (active, err) ← w.active.close
  return ({ w with active }, err)

end WAL

variable {crc32}

/-- The replay of a string whose records are known. -/
theorem replayFrom_of_splits {r tail : List UInt8} {es : List Entry} {err : DecodeError}
    (h : (codec crc32).Splits r es tail err) (entries : List Entry) (offset : ℕ) :
    replayFrom crc32 r entries offset =
      if err.endsLog then .ok (entries ++ es, offset + ((codec crc32).encodeAll es).length)
      else .error ("wal: replay decode: " ++ err.message) := by
  induction es generalizing r entries offset with
  | nil =>
      rw [replayFrom]
      split
      · rename_i decErr hdec
        rw [h.decode_nil, Except.error.injEq] at hdec
        simp [hdec]
      · rename_i entry rest hdec
        rw [h.decode_nil] at hdec
        cases hdec
  | cons e es ih =>
      obtain ⟨rest, hok, hrest⟩ := h.decode
      rw [replayFrom]
      split
      · rename_i decErr hdec
        rw [hok] at hdec
        cases hdec
      · rename_i entry rest' hdec
        rw [hok, Except.ok.injEq, Prod.mk.injEq] at hdec
        obtain ⟨rfl, rfl⟩ := hdec
        have hlen : ((codec crc32).encode e).length = encodedSize e.data.length := length_encode e
        rw [ih hrest, Codec.encodeAll_cons, List.length_append, hlen, List.append_assoc,
          List.singleton_append, Nat.add_assoc]

/-- A header that no record has makes the replay fail. -/
theorem replayFrom_of_decode {r : List UInt8} {err : DecodeError}
    (h : decode crc32 r = .error err) (hfatal : err.endsLog = false) :
    replayFrom crc32 r [] 0 = .error ("wal: replay decode: " ++ err.message) := by
  have hsplits : (codec crc32).Splits r [] r err := .nil h
  rw [replayFrom_of_splits hsplits, hfatal]
  rfl

/-- What a replay that succeeds has found. -/
theorem of_replayFrom {r : List UInt8} {es : List Entry} {validBytes : ℕ}
    (h : replayFrom crc32 r [] 0 = .ok (es, validBytes)) :
    ∃ tail err, (codec crc32).Splits r es tail err ∧
      validBytes = ((codec crc32).encodeAll es).length := by
  obtain ⟨as, tail, err, hsplits⟩ := (codec crc32).exists_splits r
  rw [replayFrom_of_splits hsplits] at h
  split at h
  · obtain ⟨rfl, rfl⟩ := Prod.mk.inj (Except.ok.inj h)
    refine ⟨tail, err, ?_, ?_⟩
    · rwa [List.nil_append]
    · rw [Nat.zero_add, List.nil_append]
  · cases h

theorem replayFrom_encodeAll {es : List Entry} (h : ∀ e ∈ es, e.Fits) :
    replayFrom crc32 ((codec crc32).encodeAll es) [] 0 =
      .ok (es, ((codec crc32).encodeAll es).length) := by
  have hend : decode crc32 [] = .error .eof := if_pos rfl
  have hsplits : (codec crc32).Splits ((codec crc32).encodeAll es) es [] .eof :=
    ⟨(List.append_nil _).symm, h, hend⟩
  rw [replayFrom_of_splits hsplits, List.nil_append, Nat.zero_add]
  rfl

/-- The bytes up to the offset that a replay returns are the records of its entries, no record
follows there, and a replay of these bytes finds the same. A file cut at the offset keeps all
entries, and cutting it once more changes nothing. -/
theorem replayFile_exact {dir : Dir} {path : List Char} {content : List UInt8} {es : List Entry}
    {validBytes : ℕ} (hget : get dir path = some content)
    (h : replayFile crc32 dir path = .ok (es, validBytes)) :
    validBytes ≤ content.length ∧ content.take validBytes = es.flatMap (encode crc32) ∧
      (∃ err, decode crc32 (content.drop validBytes) = .error err) ∧
      (∀ dir', get dir' path = some (content.take validBytes) →
        replayFile crc32 dir' path = .ok (es, validBytes)) ∧
      ∀ id, ∃ dir' seg, openSegmentForWrite dir path id validBytes = .ok (dir', seg) ∧
        replayFile crc32 dir' path = .ok (es, validBytes) ∧
        openSegmentForWrite dir' path id validBytes = .ok (dir', seg) := by
  rw [replayFile, hget] at h
  obtain ⟨tail, err, hsplits, rfl⟩ := of_replayFrom h
  have hcontent := hsplits.eq
  have htake : content.take ((codec crc32).encodeAll es).length = (codec crc32).encodeAll es := by
    rw [hcontent, List.take_left]
  have hdrop : content.drop ((codec crc32).encodeAll es).length = tail := by
    rw [hcontent, List.drop_left]
  have hle : ((codec crc32).encodeAll es).length ≤ content.length := by
    rw [hcontent, List.length_append]
    omega
  have hagain : ∀ dir', get dir' path = some (content.take ((codec crc32).encodeAll es).length) →
      replayFile crc32 dir' path = .ok (es, ((codec crc32).encodeAll es).length) := by
    intro dir' hget'
    rw [replayFile, hget', htake]
    exact replayFrom_encodeAll hsplits.fits
  refine ⟨hle, htake, ⟨err, hdrop ▸ hsplits.stop⟩, hagain, ?_⟩
  intro id
  have hcut := get_put_self dir path (content.take ((codec crc32).encodeAll es).length)
  refine ⟨_, _, openSegmentForWrite_of_le hget hle id, hagain _ hcut, ?_⟩
  rw [openSegmentForWrite_of_le hcut (List.length_take_of_le hle).ge id, List.take_take,
    Nat.min_self, SortedList.put_of_get hcut]

end Checksum

/-- A record and three bytes of the next one. -/
theorem replayFile_exact_torn :
    let content := encode checksumIEEE ⟨4, [7]⟩ ++ [9, 0, 0]
    content.take 21 = encode checksumIEEE ⟨4, [7]⟩ ∧
      ∃ err, decode checksumIEEE (content.drop 21) = .error err := by
  have hfits : ∀ e ∈ [(⟨4, [7]⟩ : Entry)], e.Fits := by decide
  have hsplits : (codec checksumIEEE).Splits (encode checksumIEEE ⟨4, [7]⟩ ++ [9, 0, 0])
      [⟨4, [7]⟩] [9, 0, 0] .header := ⟨rfl, hfits, rfl⟩
  have hreplay := replayFrom_of_splits hsplits [] 0
  have hget := get_put_self (Store.empty : Dir) (segmentPath 1)
    (encode checksumIEEE ⟨4, [7]⟩ ++ [9, 0, 0])
  have hfile : replayFile checksumIEEE (put Store.empty (segmentPath 1)
      (encode checksumIEEE ⟨4, [7]⟩ ++ [9, 0, 0])) (segmentPath 1) = .ok ([⟨4, [7]⟩], 21) := by
    rw [replayFile, hget]
    exact hreplay
  obtain ⟨-, htake, hstop, -⟩ := replayFile_exact hget hfile
  exact ⟨htake, hstop⟩

end VaultFS.Wal
