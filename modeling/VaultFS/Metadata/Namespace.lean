import Mathlib.Data.Char
import VaultFS.KeyValue.Basic
import VaultFS.SlashPath.Basic

/-!
# The namespace

`internal/metadata/namespace.go`: the inodes of files and directories, kept in a key-value
store under the prefix `ns:`. Badger and the JSON encoding of an inode are behind the store,
which holds the inodes themselves and does not fail; everything else about the store is what
its laws say.

Local time is a sequence of readings: the namespace counts the calls of `time.Now`, and the
reading with that number is what the call returns.
-/

namespace VaultFS.Metadata

open KeyValue SlashPath

/-- Nanoseconds since 1970. -/
abbrev Time := ℤ

/-- The seconds of `Time.Unix`, rounded down. -/
def Time.unix (t : Time) : ℤ := t / 1000000000

/-- The zero value of `time.Time`, which is the start of the year 1. -/
def zeroTime : Time := -62135596800000000000

structure FileInfo where
  path : List Char
  isDir : Bool := false
  size : ℤ := 0
  chunkIDs : List String := []
  mode : ℕ := 0
  createdAt : Time := zeroTime
  updatedAt : Time := zeroTime
  deriving DecidableEq

inductive Error where
  | notFound (path : List Char)
  | alreadyExists (path : List Char)
  | notADirectory (path : List Char)
  deriving DecidableEq

def Error.message : Error → String
  | .notFound path => "metadata: path not found: " ++ String.ofList path
  | .alreadyExists path => "metadata: path already exists: " ++ String.ofList path
  | .notADirectory path => "metadata: " ++ String.ofList path ++ " is not a directory"

/-- The error wraps `ErrNotFound`. -/
def Error.isNotFound : Error → Bool
  | .notFound _ => true
  | _ => false

/-- The error wraps `ErrAlreadyExists`. -/
def Error.isAlreadyExists : Error → Bool
  | .alreadyExists _ => true
  | _ => false

/-- The errors of `Rename`. -/
inductive RenameError where
  | source (err : Error)
  | destinationExists
  deriving DecidableEq

def nsPrefix : List Char := ['n', 's', ':']

def nsKey (path : List Char) : List Char := nsPrefix ++ path

structure Namespace (σ : Type*) where
  store : σ
  reads : ℕ

namespace Namespace

variable {σ : Type*} [Store σ Char FileInfo]

def empty : Namespace σ := ⟨Store.empty, 0⟩

/-- The inode stored for a path. -/
def find (ns : Namespace σ) (path : List Char) : Option FileInfo := get ns.store (nsKey path)

def stat (ns : Namespace σ) (path : List Char) : Except Error FileInfo :=
  match ns.find path with
  | none => .error (.notFound path)
  | some fi => .ok fi

def write (ns : Namespace σ) (info : FileInfo) : Namespace σ :=
  { ns with store := put ns.store (nsKey info.path) info }

/-- Read the clock. -/
def tick (ns : Namespace σ) : Namespace σ := { ns with reads := ns.reads + 1 }

section Clock

variable (clock : ℕ → Time)

def createFile (ns : Namespace σ) (info : FileInfo) : Namespace σ × Except Error Unit :=
  match ns.stat info.path with
  | .ok _ => (ns, .error (.alreadyExists info.path))
  | .error _ =>
      let now := clock ns.reads
      (ns.tick.write { info with createdAt := now, updatedAt := now }, .ok ())

def createDir (ns : Namespace σ) (path : List Char) : Namespace σ × Except Error Unit :=
  match ns.stat path with
  | .ok _ => (ns, .error (.alreadyExists path))
  | .error _ =>
      let now := clock ns.reads
      -- the mode is 0o755
      (ns.tick.write { path, isDir := true, mode := 493, createdAt := now, updatedAt := now },
        .ok ())

/-- The inode is replaced as a whole: what `info` leaves out is lost, `createdAt` too. -/
def updateFile (ns : Namespace σ) (info : FileInfo) : Namespace σ × Except Error Unit :=
  match ns.stat info.path with
  | .error err => (ns, .error err)
  | .ok _ => (ns.tick.write { info with updatedAt := clock ns.reads }, .ok ())

/-- One transaction writes the new path and deletes the old one, and nothing else. -/
def rename (ns : Namespace σ) (src dst : List Char) : Namespace σ × Except RenameError Unit :=
  match ns.stat src with
  | .error err => (ns, .error (.source err))
  | .ok fi =>
      match ns.stat dst with
      | .ok _ => (ns, .error .destinationExists)
      | .error _ =>
          let ns' := ns.tick.write { fi with path := dst, updatedAt := clock ns.reads }
          ({ ns' with store := delete ns'.store (nsKey src) }, .ok ())

end Clock

def deleteFile (ns : Namespace σ) (path : List Char) : Namespace σ × Except Error Unit :=
  match ns.stat path with
  | .error err => (ns, .error err)
  | .ok _ => ({ ns with store := delete ns.store (nsKey path) }, .ok ())

/-- `strings.TrimSuffix` with a slash. -/
def trimSlash (path : List Char) : List Char :=
  if path.getLast? = some '/' then path.dropLast else path

/-- The direct children of a directory: what lies below them has a further slash. -/
def children (ns : Namespace σ) (dir : List Char) : List FileInfo :=
  let scanPrefix := nsPrefix ++ trimSlash dir ++ ['/']
  ((scan ns.store scanPrefix).filter fun x => '/' ∉ x.1.drop scanPrefix.length).map (·.2)

def listDir (ns : Namespace σ) (dir : List Char) : Except Error (List FileInfo) :=
  if dir = ['/'] then .ok (ns.children dir)
  else match ns.stat dir with
    | .error err => .error err
    | .ok fi => if fi.isDir then .ok (ns.children dir) else .error (.notADirectory dir)

/-! ### What the operations do to the inodes -/

theorem nsKey_inj {p q : List Char} : nsKey p = nsKey q ↔ p = q :=
  List.append_right_inj nsPrefix

theorem stat_eq_ok {ns : Namespace σ} {path : List Char} {fi : FileInfo} :
    ns.stat path = .ok fi ↔ ns.find path = some fi := by
  unfold stat
  cases ns.find path with
  | none => simp
  | some fi' => simp

theorem stat_eq_error {ns : Namespace σ} {path : List Char} {err : Error} :
    ns.stat path = .error err ↔ ns.find path = none ∧ err = .notFound path := by
  unfold stat
  cases ns.find path with
  | none => simp [eq_comm]
  | some fi' => simp

@[simp] theorem find_tick (ns : Namespace σ) (path : List Char) :
    ns.tick.find path = ns.find path := rfl

section Lawful

variable [LawfulStore σ]

@[simp] theorem find_empty (path : List Char) : (empty : Namespace σ).find path = none :=
  get_empty _

theorem find_write (ns : Namespace σ) (info : FileInfo) (path : List Char) :
    (ns.write info).find path = if path = info.path then some info else ns.find path := by
  simp only [find, write, get_put, nsKey_inj]

theorem find_write_self (ns : Namespace σ) (info : FileInfo) :
    (ns.write info).find info.path = some info := by
  rw [find_write, if_pos rfl]

theorem find_delete (ns : Namespace σ) (p path : List Char) :
    ({ ns with store := delete ns.store (nsKey p) } : Namespace σ).find path =
      if path = p then none else ns.find path := by
  simp only [find, get_delete, nsKey_inj]

theorem find_rename {clock : ℕ → Time} {ns : Namespace σ} {src dst : List Char}
    (h : (ns.rename clock src dst).2 = .ok ()) :
    ∃ fi, ns.find src = some fi ∧ ns.find dst = none ∧ dst ≠ src ∧
      ∀ q, (ns.rename clock src dst).1.find q =
        if q = src then none
        else if q = dst then some { fi with path := dst, updatedAt := clock ns.reads }
        else ns.find q := by
  unfold rename at h ⊢
  cases hsrc : ns.stat src with
  | error err => simp [hsrc] at h
  | ok fi =>
      cases hdst : ns.stat dst with
      | ok fi' => simp [hsrc, hdst] at h
      | error err =>
          refine ⟨fi, stat_eq_ok.mp hsrc, (stat_eq_error.mp hdst).1, ?_, fun q => ?_⟩
          · rintro rfl
            rw [hsrc] at hdst
            cases hdst
          · simp only [find_delete, find_write, find_tick]

end Lawful

end Namespace

end VaultFS.Metadata
