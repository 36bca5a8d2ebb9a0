import Mathlib.Data.List.Basic

/-!
# The in-memory Raft log

`RaftLog` is the log of `internal/raft/log.go`: the physical entries begin right
after `snapIndex`, and everything up to `snapIndex` has been compacted away,
leaving only its last term. Lookups go by offset from `snapIndex`, so they are
meaningful only while the entries are contiguous, which is the predicate
`Contiguous` (the invariant written above the source's struct). It is a
predicate and not a field, because the operations below do not check it.

Indices and terms are `uint64` in the source. They are counted up one at a time
from zero, so they are natural numbers here; the one subtraction of the source
that could wrap is modelled with its wrap-around in `Node/Replication.lean`.
-/

namespace VaultFS

namespace Raft

/-- A single Raft log entry; the command is an uninterpreted byte string. -/
structure Entry where
  index : ℕ
  term : ℕ
  command : List UInt8
  deriving DecidableEq, Repr

/-- The two errors of a term lookup, each with the index that was asked for. -/
inductive LogError where
  | compacted (index : ℕ)
  | indexNotFound (index : ℕ)
  deriving DecidableEq, Repr

structure RaftLog where
  entries : List Entry
  snapIndex : ℕ
  snapTerm : ℕ
  deriving DecidableEq, Repr

namespace RaftLog

def newRaftLog : RaftLog := ⟨[], 0, 0⟩

/-- The index of the most recent entry, read off the entry itself. -/
def lastIndex (l : RaftLog) : ℕ :=
  match l.entries.getLast? with
  | none => l.snapIndex
  | some e => e.index

/-- The term of the most recent entry. -/
def lastTerm (l : RaftLog) : ℕ :=
  match l.entries.getLast? with
  | none => l.snapTerm
  | some e => e.term

/-- The term at `index`. Index zero is exempt from every check, also on a
compacted log. -/
def term (l : RaftLog) (index : ℕ) : Except LogError ℕ :=
  if index = 0 then .ok 0
  else if index = l.snapIndex then .ok l.snapTerm
  else if index < l.snapIndex then .error (.compacted index)
  else
    match l.entries[index - l.snapIndex - 1]? with
    | none => .error (.indexNotFound index)
    | some e => .ok e.term

def append (l : RaftLog) (es : List Entry) : RaftLog :=
  { l with entries := l.entries ++ es }

/-- Remove all entries at `index` and after it. -/
def truncateAfter (l : RaftLog) (index : ℕ) : RaftLog :=
  if index ≤ l.snapIndex then { l with entries := [] }
  else { l with entries := l.entries.take (index - l.snapIndex - 1) }

/-- The entries with index in `[lo, hi)`; empty when the range is empty or
reaches into the compacted part. -/
def slice (l : RaftLog) (lo hi : ℕ) : List Entry :=
  if lo ≥ hi ∨ lo ≤ l.snapIndex ∨ l.entries.length = 0 then []
  else
    let loOff := lo - l.snapIndex - 1
    let hiOff := hi - l.snapIndex - 1
    if loOff ≥ l.entries.length then []
    else (l.entries.take (min hiOff l.entries.length)).drop loOff

/-- Discard all entries up to and including `index`, recording the term. -/
def setSnapshot (l : RaftLog) (index term : ℕ) : RaftLog :=
  if index ≤ l.snapIndex then l
  else
    let offset := index - l.snapIndex
    { entries := if offset ≥ l.entries.length then [] else l.entries.drop offset
      snapIndex := index
      snapTerm := term }

/-- The number of in-memory entries. -/
def len (l : RaftLog) : ℕ := l.entries.length

/-- The documented invariant of `raftLog`. -/
def Contiguous (l : RaftLog) : Prop :=
  ∀ k e, l.entries[k]? = some e → e.index = l.snapIndex + 1 + k

end RaftLog

end Raft

end VaultFS
