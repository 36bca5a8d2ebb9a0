import VaultFS.Decimal.Basic
import VaultFS.Interaction.Crash
import VaultFS.KeyValue.Basic
import VaultFS.Wal.Entry

/-!
# Segment files

`internal/wal/segment.go`. The log's directory is the list of its files in the order of their names,
and a path is a name in it. Calls that come while the log is in use are operations that the
file system answers, and any of them may fail: a write that fails has stored a part of the bytes,
and a failed create has made no file. Sizes do not overflow.

Old segments have no open file. A method on a segment without one gets an error, except `close`.
-/

namespace VaultFS.Wal

open Interaction KeyValue

abbrev Dir := SortedList Char (List UInt8)

/-- Create a file that does not exist, as with `O_EXCL`. -/
def createFile (dir : Dir) (path : List Char) : Option Dir :=
  if (get dir path).isSome then none else some (put dir path [])

/-- The bytes of a file after `Truncate`. -/
def truncate (size : ℕ) (content : List UInt8) : List UInt8 :=
  content.take size ++ List.replicate (size - content.length) 0

inductive Op where
  | create (path : List Char)
  | write (path : List Char) (p : List UInt8)
  | sync (path : List Char)
  | close (path : List Char)

/-- What a call returns; a write returns the number of bytes it stored. -/
structure Answer where
  stored : ℕ := 0
  err : Option String := none
  deriving DecidableEq

abbrev Act := Prog fun _ : Op => Answer

structure Segment where
  id : UInt64
  path : List Char
  /-- The file is open. -/
  file : Bool
  size : ℕ
  deriving DecidableEq

def walSuffix : List Char := ['.', 'w', 'a', 'l']

def segmentPath (id : UInt64) : List Char := Decimal.pad 16 id.toNat ++ walSuffix

/-- `strconv.ParseUint` for base 10 and 64 bits. -/
def parseUint (s : List Char) : Except String UInt64 :=
  let parsing := "strconv.ParseUint: parsing " ++ (String.ofList s).quote ++ ": "
  if s = [] ∨ s.any fun c => !c.isDigit then .error (parsing ++ "invalid syntax")
  else
    let n := Nat.ofDigitChars 10 s 0
    if n < 2 ^ 64 then .ok (UInt64.ofNat n) else .error (parsing ++ "value out of range")

/-- `strings.TrimSuffix`. -/
def trimSuffix (s suffix : List Char) : List Char :=
  if suffix <:+ s then s.take (s.length - suffix.length) else s

def segmentIDFromPath (path : List Char) : Except String UInt64 :=
  (parseUint (trimSuffix path walSuffix)).mapError fun err =>
    "wal: invalid segment name " ++ (String.ofList path).quote ++ ": " ++ err

/-- A segment whose file has just been created. -/
def Segment.created (id : UInt64) : Segment := ⟨id, segmentPath id, true, 0⟩

def createSegment (id : UInt64) : Act (Except String Segment) := do
  let r ← Prog.op (.create (segmentPath id))
  match r.err with
  | some err => return .error ("wal: create segment " ++ toString id.toNat ++ ": " ++ err)
  | none => return .ok (.created id)

def openSegmentForWrite (dir : Dir) (path : List Char) (id : UInt64) (validBytes : ℕ) :
    Except String (Dir × Segment) :=
  match get dir path with
  | none => .error ("wal: open segment " ++ toString id.toNat ++ ": no such file or directory")
  | some content => .ok (put dir path (truncate validBytes content), ⟨id, path, true, validBytes⟩)

namespace Segment

def describe (s : Segment) (what err : String) : String :=
  "wal: segment " ++ toString s.id.toNat ++ " " ++ what ++ ": " ++ err

def write (s : Segment) (p : List UInt8) : Act (Segment × Option String) :=
  if s.file then do
    let r ← Prog.op (.write s.path p)
    return ({ s with size := s.size + r.stored }, r.err.map (s.describe "write"))
  else return (s, some (s.describe "write" "invalid argument"))

def sync (s : Segment) : Act (Option String) :=
  if s.file then do
    let r ← Prog.op (.sync s.path)
    return r.err.map (s.describe "sync")
  else return some (s.describe "sync" "invalid argument")

def close (s : Segment) : Act (Segment × Option String) :=
  if s.file then do
    let r ← Prog.op (.sync s.path)
    let c ← Prog.op (.close s.path)
    match r.err with
    | some err => return ({ s with file := false }, some (s.describe "sync on close" err))
    | none => return ({ s with file := false }, c.err.map (s.describe "close"))
  else return (s, none)

end Segment

theorem openSegmentForWrite_of_le {dir : Dir} {path : List Char} {content : List UInt8}
    {validBytes : ℕ} (hget : get dir path = some content) (h : validBytes ≤ content.length)
    (id : UInt64) :
    openSegmentForWrite dir path id validBytes =
      .ok (put dir path (content.take validBytes), ⟨id, path, true, validBytes⟩) := by
  rw [openSegmentForWrite, hget]
  simp [truncate, Nat.sub_eq_zero_of_le h]

theorem trimSuffix_segmentPath (id : UInt64) : trimSuffix (segmentPath id) walSuffix =
    Decimal.pad 16 id.toNat := by
  rw [trimSuffix, if_pos ⟨_, rfl⟩, segmentPath, List.length_append, Nat.add_sub_cancel,
    List.take_left]

theorem segmentIDFromPath_segmentPath (id : UInt64) :
    segmentIDFromPath (segmentPath id) = .ok id := by
  have hdigits : (Decimal.pad 16 id.toNat).any (fun c => !c.isDigit) = false := by
    rw [List.any_eq_false]
    intro c hc
    simp [Decimal.isDigit_of_mem_pad hc]
  have hnil := Decimal.pad_ne_nil 16 id.toNat
  rw [segmentIDFromPath, trimSuffix_segmentPath, parseUint]
  simp [hdigits, hnil, Decimal.ofDigitChars_pad, id.toNat_lt, Except.mapError]

theorem segmentPath_lt {a b : UInt64} (h : a.toNat < b.toNat) (hb : b.toNat < 10 ^ 16) :
    segmentPath a < segmentPath b := by
  have ha : a.toNat < 10 ^ 16 := h.trans hb
  refine Decimal.append_lt_append ?_ ((Decimal.pad_lt_pad_iff (by decide) ha hb).mpr h) _ _
  rw [Decimal.length_pad (by decide) ha, Decimal.length_pad (by decide) hb]

end VaultFS.Wal
