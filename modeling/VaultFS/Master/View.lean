import VaultFS.Cell.Basic
import VaultFS.Master.Server

/-!
# The namespace as a tree of entries

What a namespace is for: a partial function from paths to entries, here a `Tree`, and what each
command does to it. Times and modes are left out, and so is the store. `Server.view_apply` says
that a master that applies a command does to the entries of its namespace what the command does
to the tree, and that it does not fail.
-/

namespace VaultFS.Master

open KeyValue SlashPath Metadata

structure Entry where
  isDir : Bool
  size : ℤ
  chunkIDs : List String
  deriving DecidableEq

def Entry.dir : Entry := ⟨true, 0, []⟩

def Entry.file (size : ℤ) (chunkIDs : List String) : Entry := ⟨false, size, chunkIDs⟩

def Entry.ofInfo (fi : FileInfo) : Entry := ⟨fi.isDir, fi.size, fi.chunkIDs⟩

/-- What a command does to its own path. -/
def Command.write (cmd : Command) : Cell.Write Entry :=
  match cmd.kind with
  | .create => .fill (.file 0 [])
  | .finalize => .set (some (.file cmd.size cmd.chunkIDs))
  | .delete => .set none

/-- The command finalizes the file with these chunks. -/
def Command.Finalizes (cmd : Command) (path : List Char) (chunkIDs : List String) (size : ℤ) :
    Prop :=
  cmd.kind = .finalize ∧ cmd.path = path ∧ cmd.chunkIDs = chunkIDs ∧ cmd.size = size

abbrev Tree := List Char → Option Entry

namespace Tree

/-- Directories at those of the paths where nothing is stored. -/
def fillDirs (t : Tree) (paths : List (List Char)) : Tree := fun q =>
  if q ∈ paths ∧ t q = none then some .dir else t q

/-- A new file, with directories above it where nothing is stored. -/
def create (t : Tree) (path : List Char) (e : Entry) : Tree :=
  Function.update (t.fillDirs (parents '/' path)) path (some e)

def apply (t : Tree) (cmd : Command) : Tree :=
  match cmd.kind with
  | .create => if (t cmd.path).isSome then t else t.create cmd.path (.file 0 [])
  | .finalize =>
      if (t cmd.path).isSome then
        Function.update t cmd.path (some (.file cmd.size cmd.chunkIDs))
      else t.create cmd.path (.file cmd.size cmd.chunkIDs)
  | .delete => Function.update t cmd.path none

def applyAll (t : Tree) (cmds : List Command) : Tree := cmds.foldl apply t

theorem fillDirs_nil (t : Tree) : t.fillDirs [] = t := by
  funext q
  simp [fillDirs]

theorem fillDirs_cons_of_isSome {t : Tree} {p : List Char} (h : (t p).isSome)
    (paths : List (List Char)) : t.fillDirs (p :: paths) = t.fillDirs paths := by
  funext q
  unfold fillDirs
  by_cases hq : q = p
  · subst hq
    simp [Option.isSome_iff_ne_none.mp h]
  · simp [hq]

theorem fillDirs_cons_of_none {t : Tree} {p : List Char} (h : t p = none)
    (paths : List (List Char)) :
    t.fillDirs (p :: paths) = fillDirs (Function.update t p (some .dir)) paths := by
  funext q
  unfold fillDirs
  by_cases hq : q = p
  · subst hq
    simp [h]
  · simp [hq]

theorem create_of_ne {t : Tree} {p q : List Char} (h : q ≠ p) (e : Entry) :
    t.create p e q = t.fillDirs (parents '/' p) q :=
  Function.update_of_ne h _ _

theorem fillDirs_of_isSome {t : Tree} {q : List Char} (h : (t q).isSome)
    (paths : List (List Char)) : t.fillDirs paths q = t q :=
  if_neg fun hq => Option.isSome_iff_ne_none.mp h hq.2

theorem apply_self (t : Tree) (cmd : Command) :
    t.apply cmd cmd.path = cmd.write.apply (t cmd.path) := by
  unfold apply Command.write
  cases cmd.kind with
  | create =>
      cases hstored : t cmd.path with
      | none => simp [create, Cell.Write.apply]
      | some e => simp [hstored, Cell.Write.apply]
  | finalize =>
      by_cases hstored : (t cmd.path).isSome
      · simp [hstored, Cell.Write.apply]
      · simp [hstored, create, Cell.Write.apply]
  | delete => simp [Cell.Write.apply]

/-- Elsewhere a command that is no deletion makes directories above the file. -/
theorem apply_of_ne {t : Tree} {cmd : Command} {q : List Char} (hq : q ≠ cmd.path) :
    t.apply cmd q =
      if cmd.kind ≠ .delete ∧ t cmd.path = none then t.fillDirs (parents '/' cmd.path) q
      else t q := by
  unfold apply
  cases cmd.kind with
  | create =>
      cases t cmd.path with
      | none => simp [create_of_ne hq]
      | some e => simp
  | finalize =>
      cases t cmd.path with
      | none => simp [create_of_ne hq]
      | some e => simp [hq]
  | delete => simp [hq]

theorem apply_finalize (t : Tree) {cmd : Command} (h : cmd.kind = .finalize) :
    t.apply cmd cmd.path = some (.file cmd.size cmd.chunkIDs) := by
  rw [apply_self, Command.write, h]
  rfl

theorem applyAll_cons (t : Tree) (cmd : Command) (cmds : List Command) :
    t.applyAll (cmd :: cmds) = (t.apply cmd).applyAll cmds := rfl

theorem applyAll_append (t : Tree) (cmds cmds' : List Command) :
    t.applyAll (cmds ++ cmds') = (t.applyAll cmds).applyAll cmds' :=
  List.foldl_append

end Tree

namespace Server

variable {σ : Type*}

/-- A finalize changes the namespace and the chunk map. -/
theorem finalized_eq (s : Server σ) (chunkIDs : List String) (r : Namespace σ × Except Error Unit) :
    ∃ chunkMap, s.finalized chunkIDs r = ({ s with ns := r.1, chunkMap }, r.2) := by
  rcases r with ⟨ns, res⟩
  cases res with
  | error err => exact ⟨s.chunkMap, rfl⟩
  | ok u =>
      cases hcm : s.chunkMap with
      | none => exact ⟨s.chunkMap, by simp only [finalized, recordChunkLocations, hcm]⟩
      | some cm =>
          simp only [finalized, recordChunkLocations, hcm]
          exact ⟨_, rfl⟩

theorem finalized_ns (s : Server σ) (chunkIDs : List String) (r : Namespace σ × Except Error Unit) :
    (s.finalized chunkIDs r).1.ns = r.1 := by
  obtain ⟨chunkMap, heq⟩ := s.finalized_eq chunkIDs r
  rw [heq]

theorem finalized_result (s : Server σ) (chunkIDs : List String)
    (r : Namespace σ × Except Error Unit) : (s.finalized chunkIDs r).2 = r.2 := by
  obtain ⟨chunkMap, heq⟩ := s.finalized_eq chunkIDs r
  rw [heq]

variable [Store σ Char FileInfo]

def view (ns : Namespace σ) : Tree := fun path => (ns.find path).map .ofInfo

theorem view_eq_none {ns : Namespace σ} {path : List Char} :
    view ns path = none ↔ ns.find path = none := by
  simp [view]

theorem isSome_view {ns : Namespace σ} {path : List Char} :
    (view ns path).isSome = (ns.find path).isSome := by
  simp [view]

variable [LawfulStore σ]

@[simp] theorem view_empty : view (Namespace.empty : Namespace σ) = fun _ => none := by
  funext path
  simp [view]

theorem view_write (ns : Namespace σ) (info : FileInfo) :
    view (ns.write info) = Function.update (view ns) info.path (some (.ofInfo info)) := by
  funext path
  by_cases h : path = info.path
  · subst h
    simp [view, Namespace.find_write]
  · simp [view, Namespace.find_write, h]

theorem view_tick_write (ns : Namespace σ) (info : FileInfo) :
    view (ns.tick.write info) = Function.update (view ns) info.path (some (.ofInfo info)) :=
  view_write ns.tick info

variable (clock : ℕ → Time)

theorem createDir_of_none {ns : Namespace σ} {path : List Char} (h : view ns path = none) :
    view (ns.createDir clock path).1 = Function.update (view ns) path (some .dir) ∧
      (ns.createDir clock path).2 = .ok () := by
  unfold Namespace.createDir
  rw [Namespace.stat_eq_error.mpr ⟨view_eq_none.mp h, rfl⟩]
  exact ⟨view_tick_write ns _, rfl⟩

theorem createFile_of_none {ns : Namespace σ} (info : FileInfo) (h : view ns info.path = none) :
    view (ns.createFile clock info).1 =
        Function.update (view ns) info.path (some (.ofInfo info)) ∧
      (ns.createFile clock info).2 = .ok () := by
  unfold Namespace.createFile
  rw [Namespace.stat_eq_error.mpr ⟨view_eq_none.mp h, rfl⟩]
  exact ⟨view_tick_write ns _, rfl⟩

theorem updateFile_of_isSome {ns : Namespace σ} (info : FileInfo)
    (h : (view ns info.path).isSome) :
    view (ns.updateFile clock info).1 =
        Function.update (view ns) info.path (some (.ofInfo info)) ∧
      (ns.updateFile clock info).2 = .ok () := by
  obtain ⟨fi, hfi⟩ := Option.isSome_iff_exists.mp (isSome_view.symm.trans h)
  unfold Namespace.updateFile
  rw [Namespace.stat_eq_ok.mpr hfi]
  exact ⟨view_tick_write ns _, rfl⟩

theorem deleteFile_view (ns : Namespace σ) (path : List Char) :
    view (ns.deleteFile path).1 = Function.update (view ns) path none ∧
      ∀ err, (ns.deleteFile path).2 = .error err → err.isNotFound := by
  unfold Namespace.deleteFile
  cases hstat : ns.stat path with
  | error err =>
      obtain ⟨hfind, rfl⟩ := Namespace.stat_eq_error.mp hstat
      refine ⟨?_, ?_⟩
      · rw [← view_eq_none.mpr hfind, Function.update_eq_self]
      · rintro err' heq
        cases heq
        rfl
  | ok fi =>
      refine ⟨?_, nofun⟩
      funext q
      by_cases hq : q = path
      · subst hq
        simp [view, Namespace.find_delete]
      · simp [view, Namespace.find_delete, hq]

/-- The loop makes the directories it descends through where nothing is stored. -/
theorem ensureParentsFrom_view (cur : List Char) (parts : List (List Char)) (ns : Namespace σ) :
    view (ensureParentsFrom clock cur parts ns).1 = (view ns).fillDirs (descend '/' cur parts) ∧
      (ensureParentsFrom clock cur parts ns).2 = .ok () := by
  induction parts generalizing cur ns with
  | nil => exact ⟨(Tree.fillDirs_nil _).symm, rfl⟩
  | cons part parts ih =>
      cases parts with
      | nil => exact ⟨(Tree.fillDirs_nil _).symm, rfl⟩
      | cons part' parts =>
          rw [ensureParentsFrom, descend]
          cases hstat : ns.stat (cur ++ '/' :: part) with
          | ok fi =>
              have hsome : (view ns (cur ++ '/' :: part)).isSome := by
                rw [isSome_view, Namespace.stat_eq_ok.mp hstat]
                rfl
              rw [Tree.fillDirs_cons_of_isSome hsome]
              exact ih _ ns
          | error err =>
              obtain ⟨hfind, rfl⟩ := Namespace.stat_eq_error.mp hstat
              have hnone : view ns (cur ++ '/' :: part) = none := view_eq_none.mpr hfind
              obtain ⟨hview, hres⟩ := createDir_of_none clock hnone
              rw [Tree.fillDirs_cons_of_none hnone, ← hview]
              rcases hdir : ns.createDir clock (cur ++ '/' :: part) with ⟨ns', res⟩
              rw [hdir] at hres
              subst hres
              exact ih _ ns'

theorem ensureParents_view (ns : Namespace σ) (path : List Char) :
    view (ensureParents clock ns path).1 = (view ns).fillDirs (parents '/' path) ∧
      (ensureParents clock ns path).2 = .ok () :=
  ensureParentsFrom_view clock [] (split '/' (trim '/' path)) ns

theorem createWithParents_view {ns : Namespace σ} (info : FileInfo)
    (h : view ns info.path = none) :
    view (createWithParents clock ns info).1 = (view ns).create info.path (.ofInfo info) ∧
      (createWithParents clock ns info).2 = .ok () := by
  obtain ⟨hview, hres⟩ := ensureParents_view clock ns info.path
  unfold createWithParents
  rcases hens : ensureParents clock ns info.path with ⟨ns', res⟩
  rw [hens] at hview hres
  subst hres
  -- the file is not among its own parents, so it is still to be created
  have hnone : view ns' info.path = none := by
    rw [hview, Tree.fillDirs, if_neg fun hmem => self_notMem_parents info.path hmem.1, h]
  obtain ⟨hview', hres'⟩ := createFile_of_none clock info hnone
  exact ⟨by rw [hview', hview, Tree.create], hres'⟩

/-- A master applies a command to its namespace as the command applies to the tree. -/
theorem view_apply (s : Server σ) (cmd : Command) :
    view (s.apply clock cmd).1.ns = (view s.ns).apply cmd ∧ (s.apply clock cmd).2 = .ok () := by
  unfold apply Tree.apply
  cases cmd.kind with
  | create =>
      cases hstat : s.ns.stat cmd.path with
      | ok fi =>
          have hsome : (view s.ns cmd.path).isSome := by
            rw [isSome_view, Namespace.stat_eq_ok.mp hstat]
            rfl
          simp only [hsome, if_true, and_self]
      | error err =>
          have hnone := view_eq_none.mpr (Namespace.stat_eq_error.mp hstat).1
          simp only [hnone, Option.isSome_none, Bool.false_eq_true, if_false]
          exact createWithParents_view clock { path := cmd.path } hnone
  | finalize =>
      cases hstat : s.ns.stat cmd.path with
      | ok fi =>
          have hsome : (view s.ns cmd.path).isSome := by
            rw [isSome_view, Namespace.stat_eq_ok.mp hstat]
            rfl
          obtain ⟨hview, hres⟩ := updateFile_of_isSome clock
            { path := cmd.path, size := cmd.size, chunkIDs := cmd.chunkIDs } hsome
          simp only [hsome, if_true, finalized_ns, finalized_result, hres, and_true]
          exact hview
      | error err =>
          have hnone := view_eq_none.mpr (Namespace.stat_eq_error.mp hstat).1
          obtain ⟨hview, hres⟩ := createWithParents_view clock
            { path := cmd.path, size := cmd.size, chunkIDs := cmd.chunkIDs } hnone
          simp only [hnone, Option.isSome_none, Bool.false_eq_true, if_false, finalized_ns,
            finalized_result, hres, and_true]
          exact hview
  | delete =>
      obtain ⟨hview, herr⟩ := deleteFile_view s.ns cmd.path
      rcases hdel : s.ns.deleteFile cmd.path with ⟨ns', res⟩
      rw [hdel] at hview herr
      cases res with
      | ok u => exact ⟨hview, rfl⟩
      | error err =>
          simp only [herr err rfl, if_true, and_true]
          exact hview

/-- The same for commands applied one after the other. -/
theorem view_applyAll (s : Server σ) (cmds : List Command) :
    view (s.applyAll clock cmds).1.ns = (view s.ns).applyAll cmds := by
  induction cmds generalizing s with
  | nil => rfl
  | cons cmd cmds ih =>
      rw [Tree.applyAll_cons, ← (view_apply clock s cmd).1]
      exact ih (s.apply clock cmd).1

theorem view_applyAll_of_empty {s : Server σ} (hs : s.ns = .empty) (cmds : List Command) :
    view (s.applyAll clock cmds).1.ns = Tree.applyAll (fun _ => none) cmds := by
  rw [view_applyAll clock s cmds, hs, view_empty]

/-- A master over a sorted list, with no chunk servers. -/
def lone : Server (SortedList Char FileInfo) := .new .empty (.new 0) [] 0 none

end Server

end VaultFS.Master
