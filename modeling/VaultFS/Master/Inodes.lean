import VaultFS.Master.View

/-!
# What a command does to an inode

A command leaves an inode as it is, creates it, replaces it or deletes it. An inode is created
with the path under which it is stored and with one reading of the clock for both of its times;
the inode that a finalize puts in the place of another one is made from the command alone.
`Server.inode_apply` says that these are all the ways.
-/

namespace VaultFS.Metadata.Namespace

open KeyValue

variable {σ : Type*} [Store σ Char FileInfo]

/-- Inodes were created and nothing else happened to the namespace. -/
structure Grows (clock : ℕ → Time) (ns ns' : Namespace σ) : Prop where
  reads : ns.reads ≤ ns'.reads
  inode : ∀ q, ns'.find q = ns.find q ∨ ns.find q = none ∧ ∃ fi k, ns'.find q = some fi ∧
    ns.reads ≤ k ∧ k < ns'.reads ∧ fi.path = q ∧ fi.createdAt = clock k ∧ fi.updatedAt = clock k

variable {clock : ℕ → Time} {ns ns' ns'' : Namespace σ}

theorem Grows.refl (clock : ℕ → Time) (ns : Namespace σ) : Grows clock ns ns :=
  ⟨le_rfl, fun _ => Or.inl rfl⟩

theorem Grows.trans (h : Grows clock ns ns') (h' : Grows clock ns' ns'') :
    Grows clock ns ns'' := by
  have hreads := h.reads
  have hreads' := h'.reads
  refine ⟨hreads.trans hreads', fun q => ?_⟩
  rcases h'.inode q with hsame | ⟨hnone, fi, k, hfi, hk, hk', hnew⟩
  · rcases h.inode q with hold | ⟨hnone, fi, k, hfi, hk, hk', hnew⟩
    · exact Or.inl (hsame.trans hold)
    · exact Or.inr ⟨hnone, fi, k, hsame.trans hfi, hk, by omega, hnew⟩
  · rcases h.inode q with hold | ⟨-, fi', k', hfi', -⟩
    · exact Or.inr ⟨hold ▸ hnone, fi, k, hfi, by omega, hk', hnew⟩
    · rw [hnone] at hfi'
      cases hfi'

section Lawful

variable [LawfulStore σ]

/-- A new inode is written. -/
theorem Grows.write {info : FileInfo} (h : ns.find info.path = none)
    (hcreated : info.createdAt = clock ns.reads) (hupdated : info.updatedAt = clock ns.reads) :
    Grows clock ns (ns.tick.write info) := by
  refine ⟨Nat.le_succ _, fun q => ?_⟩
  by_cases hq : q = info.path
  · subst hq
    exact Or.inr ⟨h, info, ns.reads, find_write_self ns.tick info, le_rfl, Nat.lt_succ_self _, rfl,
      hcreated, hupdated⟩
  · exact Or.inl (by rw [find_write, if_neg hq, find_tick])

theorem createDir_grows (ns : Namespace σ) (clock : ℕ → Time) (path : List Char) :
    Grows clock ns (ns.createDir clock path).1 := by
  unfold createDir
  cases hstat : ns.stat path with
  | ok fi => exact .refl clock ns
  | error err => exact .write (stat_eq_error.mp hstat).1 rfl rfl

theorem createFile_grows (ns : Namespace σ) (clock : ℕ → Time) (info : FileInfo) :
    Grows clock ns (ns.createFile clock info).1 := by
  unfold createFile
  cases hstat : ns.stat info.path with
  | ok fi => exact .refl clock ns
  | error err =>
      have hnone : ns.find info.path = none := (stat_eq_error.mp hstat).1
      exact .write hnone rfl rfl

end Lawful

end VaultFS.Metadata.Namespace

namespace VaultFS.Master

open KeyValue SlashPath Metadata

/-- What a command does to the inode that is stored for a path, with `n` readings of the clock
before it and `n'` after it. -/
inductive InodeStep (clock : ℕ → Time) (cmd : Command) (q : List Char) (n n' : ℕ) :
    Option FileInfo → Option FileInfo → Prop where
  | kept (c : Option FileInfo) : InodeStep clock cmd q n n' c c
  | created (fi : FileInfo) (k : ℕ) (hk : n ≤ k) (hk' : k < n') (hpath : fi.path = q)
      (hcreated : fi.createdAt = clock k) (hupdated : fi.updatedAt = clock k) :
      InodeStep clock cmd q n n' none (some fi)
  | replaced (fi : FileInfo) (k : ℕ) (hk : n ≤ k) (hk' : k < n') (hkind : cmd.kind = .finalize)
      (hq : q = cmd.path) :
      InodeStep clock cmd q n n' (some fi) (some
        { path := q, size := cmd.size, chunkIDs := cmd.chunkIDs, updatedAt := clock k })
  | deleted (c : Option FileInfo) (hkind : cmd.kind = .delete) (hq : q = cmd.path) :
      InodeStep clock cmd q n n' c none

variable {σ : Type*} [Store σ Char FileInfo] {clock : ℕ → Time}

theorem InodeStep.of_grows {ns ns' : Namespace σ} (h : ns.Grows clock ns') (cmd : Command)
    (q : List Char) : InodeStep clock cmd q ns.reads ns'.reads (ns.find q) (ns'.find q) := by
  rcases h.inode q with hsame | ⟨hnone, fi, k, hfi, hk, hk', hpath, hcreated, hupdated⟩
  · rw [hsame]
    exact .kept _
  · rw [hnone, hfi]
    exact .created fi k hk hk' hpath hcreated hupdated

namespace Server

variable [LawfulStore σ]

theorem ensureParentsFrom_grows (cur : List Char) (parts : List (List Char)) (ns : Namespace σ) :
    ns.Grows clock (ensureParentsFrom clock cur parts ns).1 := by
  induction parts generalizing cur ns with
  | nil => exact .refl clock ns
  | cons part parts ih =>
      cases parts with
      | nil => exact .refl clock ns
      | cons part' parts =>
          rw [ensureParentsFrom]
          have hdir := ns.createDir_grows clock (cur ++ '/' :: part)
          rcases hcreate : ns.createDir clock (cur ++ '/' :: part) with ⟨ns', res⟩
          rw [hcreate] at hdir
          cases ns.stat (cur ++ '/' :: part) with
          | ok fi => exact ih _ ns
          | error err =>
              simp only
              split
              · exact .refl clock ns
              · cases res with
                | ok u => exact hdir.trans (ih _ ns')
                | error err' =>
                    simp only
                    split
                    · exact hdir.trans (ih _ ns')
                    · exact hdir

theorem createWithParents_grows (ns : Namespace σ) (info : FileInfo) :
    ns.Grows clock (createWithParents clock ns info).1 := by
  have hparents : ns.Grows clock (ensureParents clock ns info.path).1 :=
    ensureParentsFrom_grows [] _ ns
  unfold createWithParents
  rcases hens : ensureParents clock ns info.path with ⟨ns', res⟩
  rw [hens] at hparents
  cases res with
  | error err => exact hparents
  | ok u => exact hparents.trans (ns'.createFile_grows clock info)

/-- A command creates inodes, replaces the inode of its path, or deletes it. -/
theorem apply_cases (s : Server σ) (clock : ℕ → Time) (cmd : Command) :
    (s.ns.Grows clock (s.apply clock cmd).1.ns ∧
      (cmd.kind = .finalize → s.ns.find cmd.path = none)) ∨
    (cmd.kind = .finalize ∧ ∃ fi, s.ns.find cmd.path = some fi ∧ (s.apply clock cmd).1.ns =
      s.ns.tick.write { path := cmd.path, size := cmd.size, chunkIDs := cmd.chunkIDs,
                        updatedAt := clock s.ns.reads }) ∨
    (cmd.kind = .delete ∧
      (s.apply clock cmd).1.ns = { s.ns with store := delete s.ns.store (nsKey cmd.path) }) := by
  unfold apply
  cases hkind : cmd.kind with
  | create =>
      cases s.ns.stat cmd.path with
      | ok fi => exact Or.inl ⟨.refl clock s.ns, by simp⟩
      | error err => exact Or.inl ⟨createWithParents_grows s.ns { path := cmd.path }, by simp⟩
  | finalize =>
      cases hstat : s.ns.stat cmd.path with
      | ok fi =>
          refine Or.inr (Or.inl ⟨rfl, fi, Namespace.stat_eq_ok.mp hstat, ?_⟩)
          simp only [finalized_ns, Namespace.updateFile, hstat]
      | error err =>
          simp only [finalized_ns]
          exact Or.inl ⟨createWithParents_grows s.ns _,
            fun _ => (Namespace.stat_eq_error.mp hstat).1⟩
  | delete =>
      unfold Namespace.deleteFile
      cases s.ns.stat cmd.path with
      | error err => exact Or.inl ⟨.refl clock s.ns, by simp⟩
      | ok fi => exact Or.inr (Or.inr ⟨rfl, rfl⟩)

/-- The ways in which a command changes the inode of a path. -/
theorem inode_apply (s : Server σ) (clock : ℕ → Time) (cmd : Command) (q : List Char) :
    InodeStep clock cmd q s.ns.reads (s.apply clock cmd).1.ns.reads (s.ns.find q)
      ((s.apply clock cmd).1.ns.find q) := by
  rcases s.apply_cases clock cmd with ⟨hgrows, -⟩ | ⟨hkind, fi, hfi, heq⟩ | ⟨hkind, heq⟩
  · exact .of_grows hgrows cmd q
  · rw [heq, Namespace.find_write]
    split
    · rename_i hq
      simp only at hq
      rw [hq, hfi]
      exact .replaced fi s.ns.reads le_rfl (Nat.lt_succ_self _) hkind rfl
    · exact .kept _
  · rw [heq, Namespace.find_delete]
    split
    · rename_i hq
      exact .deleted _ hkind hq
    · exact .kept _

end Server

end VaultFS.Master
