import VaultFS.Master.View

/-!
# Masters with different clocks

Two masters apply the same commands and read the time from their own clocks. Which branch of
`apply` is taken never depends on a time, so that the masters take the same ones and read their
clocks equally often (`SameAnswers.apply`); but every inode carries readings, and the answers show
them in seconds. The answers agree after all commands exactly when the clocks show the same
seconds at each reading.
-/

namespace VaultFS.Master

open KeyValue SlashPath Metadata

namespace Server

variable {σ : Type*} [Store σ Char FileInfo]

/-- The namespaces differ at most in what is not sent to clients. -/
structure SameInodes (ns ns' : Namespace σ) : Prop where
  reads : ns.reads = ns'.reads
  proto : ∀ q, (ns.find q).map fileInfoToProto = (ns'.find q).map fileInfoToProto

/-- Related namespaces and the same result. -/
def SameResults (r r' : Namespace σ × Except Error Unit) : Prop :=
  SameInodes r.1 r'.1 ∧ r.2 = r'.2

variable {clock clock' : ℕ → Time} {ns ns' : Namespace σ}

theorem SameInodes.stat (h : SameInodes ns ns') (path : List Char) :
    (∃ fi fi', ns.stat path = .ok fi ∧ ns'.stat path = .ok fi' ∧
        fileInfoToProto fi = fileInfoToProto fi') ∨
      ns.stat path = .error (.notFound path) ∧ ns'.stat path = .error (.notFound path) := by
  have hproto := h.proto path
  cases hfind : ns.find path with
  | none =>
      have hfind' : ns'.find path = none := by simpa [hfind] using hproto.symm
      exact Or.inr ⟨Namespace.stat_eq_error.mpr ⟨hfind, rfl⟩,
        Namespace.stat_eq_error.mpr ⟨hfind', rfl⟩⟩
  | some fi =>
      rw [hfind, Option.map_some, eq_comm, Option.map_eq_some_iff] at hproto
      obtain ⟨fi', hfind', hfi⟩ := hproto
      exact Or.inl ⟨fi, fi', Namespace.stat_eq_ok.mpr hfind, Namespace.stat_eq_ok.mpr hfind',
        hfi.symm⟩

/-- Masters that give the same answers. -/
structure SameAnswers (s s' : Server σ) : Prop where
  ns : SameInodes s.ns s'.ns
  placement : s.placement = s'.placement

theorem SameAnswers.stat {s s' : Server σ} (h : SameAnswers s s') (path : List Char) :
    s.stat path = s'.stat path := by
  unfold Server.stat lookup
  rcases h.ns.stat path with ⟨fi, fi', hfi, hfi', hproto⟩ | ⟨herr, herr'⟩
  · rw [hfi, hfi']
    exact congrArg Except.ok hproto
  · rw [herr, herr']

theorem SameAnswers.openForRead {s s' : Server σ} (h : SameAnswers s s') (path : List Char) :
    s.openForRead path = s'.openForRead path := by
  unfold Server.openForRead lookup
  rcases h.ns.stat path with ⟨fi, fi', hfi, hfi', hproto⟩ | ⟨herr, herr'⟩
  · have hids : fi.chunkIDs = fi'.chunkIDs := congrArg FileInfoProto.chunkIds hproto
    rw [hfi, hfi']
    simp only [Except.map, hproto, hids, h.placement]
  · rw [herr, herr']
    rfl

variable [LawfulStore σ]

theorem SameInodes.write (h : SameInodes ns ns') {info info' : FileInfo}
    (hinfo : fileInfoToProto info = fileInfoToProto info') :
    SameInodes (ns.tick.write info) (ns'.tick.write info') := by
  have hpath : info.path = info'.path := congrArg FileInfoProto.path hinfo
  refine ⟨congrArg (· + 1) h.reads, fun q => ?_⟩
  rw [Namespace.find_write, Namespace.find_write, hpath]
  split
  · exact congrArg some hinfo
  · exact h.proto q

theorem SameInodes.createFile (hclock : ∀ n, (clock n).unix = (clock' n).unix)
    (h : SameInodes ns ns') (info : FileInfo) :
    SameResults (ns.createFile clock info) (ns'.createFile clock' info) := by
  unfold Namespace.createFile
  rcases h.stat info.path with ⟨fi, fi', hfi, hfi', -⟩ | ⟨herr, herr'⟩
  · rw [hfi, hfi']
    exact ⟨h, rfl⟩
  · rw [herr, herr']
    refine ⟨h.write ?_, rfl⟩
    simp [fileInfoToProto, h.reads, hclock]

theorem SameInodes.createDir (hclock : ∀ n, (clock n).unix = (clock' n).unix)
    (h : SameInodes ns ns') (path : List Char) :
    SameResults (ns.createDir clock path) (ns'.createDir clock' path) := by
  unfold Namespace.createDir
  rcases h.stat path with ⟨fi, fi', hfi, hfi', -⟩ | ⟨herr, herr'⟩
  · rw [hfi, hfi']
    exact ⟨h, rfl⟩
  · rw [herr, herr']
    refine ⟨h.write ?_, rfl⟩
    simp [fileInfoToProto, h.reads, hclock]

theorem SameInodes.updateFile (hclock : ∀ n, (clock n).unix = (clock' n).unix)
    (h : SameInodes ns ns') (info : FileInfo) :
    SameResults (ns.updateFile clock info) (ns'.updateFile clock' info) := by
  unfold Namespace.updateFile
  rcases h.stat info.path with ⟨fi, fi', hfi, hfi', -⟩ | ⟨herr, herr'⟩
  · rw [hfi, hfi']
    refine ⟨h.write ?_, rfl⟩
    simp [fileInfoToProto, h.reads, hclock]
  · rw [herr, herr']
    exact ⟨h, rfl⟩

theorem SameInodes.deleteFile (h : SameInodes ns ns') (path : List Char) :
    SameResults (ns.deleteFile path) (ns'.deleteFile path) := by
  unfold Namespace.deleteFile
  rcases h.stat path with ⟨fi, fi', hfi, hfi', -⟩ | ⟨herr, herr'⟩
  · rw [hfi, hfi']
    refine ⟨⟨h.reads, fun q => ?_⟩, rfl⟩
    rw [Namespace.find_delete, Namespace.find_delete]
    split
    · rfl
    · exact h.proto q
  · rw [herr, herr']
    exact ⟨h, rfl⟩

theorem SameInodes.ensureParentsFrom (hclock : ∀ n, (clock n).unix = (clock' n).unix)
    (h : SameInodes ns ns') (cur : List Char) (parts : List (List Char)) :
    SameResults (ensureParentsFrom clock cur parts ns)
      (ensureParentsFrom clock' cur parts ns') := by
  induction parts generalizing cur ns ns' with
  | nil => exact ⟨h, rfl⟩
  | cons part parts ih =>
      cases parts with
      | nil => exact ⟨h, rfl⟩
      | cons part' parts =>
          rcases h.stat (cur ++ '/' :: part) with ⟨fi, fi', hfi, hfi', -⟩ | ⟨herr, herr'⟩
          · simp only [Server.ensureParentsFrom, hfi, hfi']
            exact ih h _
          · obtain ⟨hdir, hres⟩ := h.createDir hclock (cur ++ '/' :: part)
            rcases hd : ns.createDir clock (cur ++ '/' :: part) with ⟨ns₁, res⟩
            rcases hd' : ns'.createDir clock' (cur ++ '/' :: part) with ⟨ns₁', res'⟩
            rw [hd, hd'] at hdir hres
            obtain rfl : res = res' := hres
            simp only [Server.ensureParentsFrom, herr, herr', hd, hd', Error.isNotFound,
              Bool.not_true, Bool.false_eq_true, if_false]
            cases res with
            | ok u => exact ih hdir _
            | error err =>
                cases hexists : err.isAlreadyExists with
                | true =>
                    simp only [hexists, if_true]
                    exact ih hdir _
                | false =>
                    simp only [hexists, Bool.false_eq_true, if_false]
                    exact ⟨hdir, rfl⟩

theorem SameInodes.createWithParents (hclock : ∀ n, (clock n).unix = (clock' n).unix)
    (h : SameInodes ns ns') (info : FileInfo) :
    SameResults (createWithParents clock ns info) (createWithParents clock' ns' info) := by
  obtain ⟨hens, hres⟩ := h.ensureParentsFrom hclock [] (split '/' (trim '/' info.path))
  unfold Server.createWithParents Server.ensureParents
  rcases he : Server.ensureParentsFrom clock [] (split '/' (trim '/' info.path)) ns with ⟨ns₁, res⟩
  rcases he' : Server.ensureParentsFrom clock' [] (split '/' (trim '/' info.path)) ns' with
    ⟨ns₁', res'⟩
  rw [he, he'] at hens hres
  obtain rfl : res = res' := hres
  cases res with
  | error err => exact ⟨hens, rfl⟩
  | ok u => exact hens.createFile hclock info

theorem SameAnswers.apply {s s' : Server σ} (hclock : ∀ n, (clock n).unix = (clock' n).unix)
    (h : SameAnswers s s') (cmd : Command) :
    SameAnswers (s.apply clock cmd).1 (s'.apply clock' cmd).1 ∧
      (s.apply clock cmd).2 = (s'.apply clock' cmd).2 := by
  -- a change of the namespace only
  have hput : ∀ {r r' : Namespace σ × Except Error Unit}, SameResults r r' →
      SameAnswers { s with ns := r.1 } { s' with ns := r'.1 } ∧ r.2 = r'.2 :=
    fun hr => ⟨⟨hr.1, h.placement⟩, hr.2⟩
  unfold Server.apply
  cases cmd.kind with
  | create =>
      rcases h.ns.stat cmd.path with ⟨fi, fi', hfi, hfi', -⟩ | ⟨herr, herr'⟩
      · rw [hfi, hfi']
        exact ⟨h, rfl⟩
      · rw [herr, herr']
        exact hput (h.ns.createWithParents hclock _)
  | finalize =>
      have hfinish : ∀ {r r' : Namespace σ × Except Error Unit}, SameResults r r' →
          SameAnswers (s.finalized cmd.chunkIDs r).1 (s'.finalized cmd.chunkIDs r').1 ∧
            (s.finalized cmd.chunkIDs r).2 = (s'.finalized cmd.chunkIDs r').2 := by
        intro r r' hr
        obtain ⟨cm, heq⟩ := finalized_eq s cmd.chunkIDs r
        obtain ⟨cm', heq'⟩ := finalized_eq s' cmd.chunkIDs r'
        rw [heq, heq']
        exact ⟨⟨hr.1, h.placement⟩, hr.2⟩
      rcases h.ns.stat cmd.path with ⟨fi, fi', hfi, hfi', -⟩ | ⟨herr, herr'⟩
      · simp only [hfi, hfi']
        exact hfinish (h.ns.updateFile hclock _)
      · simp only [herr, herr']
        exact hfinish (h.ns.createWithParents hclock _)
  | delete =>
      obtain ⟨hdel, hres⟩ := h.ns.deleteFile cmd.path
      rcases hd : s.ns.deleteFile cmd.path with ⟨ns₁, res⟩
      rcases hd' : s'.ns.deleteFile cmd.path with ⟨ns₁', res'⟩
      rw [hd, hd'] at hdel hres
      obtain rfl : res = res' := hres
      cases res with
      | ok u => exact ⟨⟨hdel, h.placement⟩, rfl⟩
      | error err => exact ⟨⟨hdel, h.placement⟩, rfl⟩

theorem SameAnswers.applyAll {s s' : Server σ} (hclock : ∀ n, (clock n).unix = (clock' n).unix)
    (h : SameAnswers s s') (cmds : List Command) :
    SameAnswers (s.applyAll clock cmds).1 (s'.applyAll clock' cmds).1 ∧
      (s.applyAll clock cmds).2 = (s'.applyAll clock' cmds).2 := by
  induction cmds generalizing s s' with
  | nil => exact ⟨h, rfl⟩
  | cons cmd cmds ih =>
      obtain ⟨hone, hres⟩ := h.apply hclock cmd
      obtain ⟨hall, hress⟩ := ih hone
      exact ⟨hall, congrArg₂ List.cons hres hress⟩

theorem SameInodes.children (h : SameInodes ns ns') (dir : List Char) :
    (ns.children dir).map fileInfoToProto = (ns'.children dir).map fileInfoToProto := by
  unfold Namespace.children
  simp only [List.map_map]
  refine scan_filter_map_congr ?_ fun k =>
    '/' ∉ k.drop (nsPrefix ++ Namespace.trimSlash dir ++ ['/']).length
  rintro k ⟨rest, rfl⟩
  simpa only [Namespace.find, nsKey, List.append_assoc] using
    h.proto (Namespace.trimSlash dir ++ ['/'] ++ rest)

theorem SameAnswers.listDir {s s' : Server σ} (h : SameAnswers s s') (path : List Char) :
    s.listDir path = s'.listDir path := by
  have hchildren := h.ns.children path
  unfold Server.listDir Namespace.listDir
  by_cases hroot : path = ['/']
  · simp only [if_pos hroot]
    exact congrArg Except.ok hchildren
  · simp only [if_neg hroot]
    rcases h.ns.stat path with ⟨fi, fi', hfi, hfi', hproto⟩ | ⟨herr, herr'⟩
    · have hdir : fi.isDir = fi'.isDir := congrArg FileInfoProto.isDir hproto
      simp only [hfi, hfi', hdir]
      cases fi'.isDir with
      | true => exact congrArg Except.ok hchildren
      | false => rfl
    · simp only [herr, herr']

/-! ### A reading that is shown -/

/-- Finalizing a file in the root reads the clock once and shows the reading. -/
theorem finalize_root (s : Server σ) :
    let cmd : Command := { kind := .finalize, path := ['/', 'a'] }
    (s.apply clock cmd).1.ns.reads = s.ns.reads + 1 ∧
      ∃ fi, (s.apply clock cmd).1.ns.find ['/', 'a'] = some fi ∧
        fi.updatedAt = clock s.ns.reads := by
  intro cmd
  have hparents : ∀ ns : Namespace σ, ensureParents clock ns ['/', 'a'] = (ns, .ok ()) := by
    intro ns
    rw [ensureParents, show split '/' (trim '/' ['/', 'a']) = [['a']] by decide]
    rfl
  cases hfind : s.ns.find ['/', 'a'] with
  | none =>
      have hstat : s.ns.stat ['/', 'a'] = .error (.notFound _) :=
        Namespace.stat_eq_error.mpr ⟨hfind, rfl⟩
      simp only [apply, cmd, hstat, finalized_ns, createWithParents, hparents,
        Namespace.createFile]
      exact ⟨rfl, _, Namespace.find_write_self _ _, rfl⟩
  | some fi =>
      have hstat := Namespace.stat_eq_ok.mpr hfind
      simp only [apply, cmd, hstat, finalized_ns, Namespace.updateFile]
      exact ⟨rfl, _, Namespace.find_write_self _ _, rfl⟩

theorem finalize_root_replicate (clock : ℕ → Time) (n : ℕ) (s : Server σ) :
    ∃ fi, (s.applyAll clock (List.replicate (n + 1)
          { kind := .finalize, path := ['/', 'a'] })).1.ns.find ['/', 'a'] = some fi ∧
        fi.updatedAt = clock (s.ns.reads + n) := by
  induction n generalizing s with
  | zero => exact (finalize_root s).2
  | succ n ih =>
      obtain ⟨fi, hfi, htime⟩ := ih (s.apply clock { kind := .finalize, path := ['/', 'a'] }).1
      refine ⟨fi, hfi, ?_⟩
      rw [htime, (finalize_root s).1, Nat.add_assoc, Nat.add_comm 1 n]

end Server

open Server

/-- Masters that are configured alike and apply the same commands from the empty namespace give
the same answers after all commands, with the same results of all of them, exactly when each
reading of their clocks is in the same second. -/
theorem same_answers_iff_same_seconds {σ : Type*} [Store σ Char FileInfo] [LawfulStore σ]
    (clock clock' : ℕ → Time) (leases leases' : LeaseManager) (chunkNodes : List NodeInfo) (rf : ℤ)
    (chunkMap chunkMap' : Option ChunkMap) :
    let s : Server σ := .new .empty leases chunkNodes rf chunkMap
    let s' : Server σ := .new .empty leases' chunkNodes rf chunkMap'
    (∀ cmds, (s.applyAll clock cmds).2 = (s'.applyAll clock' cmds).2 ∧
        ∀ path, (s.applyAll clock cmds).1.stat path = (s'.applyAll clock' cmds).1.stat path ∧
          (s.applyAll clock cmds).1.listDir path = (s'.applyAll clock' cmds).1.listDir path ∧
          (s.applyAll clock cmds).1.openForRead path =
            (s'.applyAll clock' cmds).1.openForRead path) ↔
      ∀ n, (clock n).unix = (clock' n).unix := by
  intro s s'
  constructor
  · intro hsame n
    -- the reading with the number `n` is shown by a file that is finalized over and over
    obtain ⟨fi, hfi, htime⟩ := finalize_root_replicate clock n s
    obtain ⟨fi', hfi', htime'⟩ := finalize_root_replicate clock' n s'
    have hstat := ((hsame (List.replicate (n + 1) { kind := .finalize, path := ['/', 'a'] })).2
      ['/', 'a']).1
    simp only [Server.stat, lookup, Namespace.stat_eq_ok.mpr hfi, Namespace.stat_eq_ok.mpr hfi',
      Except.map, Except.ok.injEq] at hstat
    have hunix := congrArg FileInfoProto.updatedAtUnix hstat
    simpa only [fileInfoToProto, htime, htime', s, s', Server.new, Namespace.empty, Nat.zero_add]
      using hunix
  · intro hclock cmds
    have hempty : SameAnswers s s' := ⟨⟨rfl, fun _ => rfl⟩, rfl⟩
    obtain ⟨hafter, hresults⟩ := hempty.applyAll hclock cmds
    exact ⟨hresults, fun path => ⟨hafter.stat path, hafter.listDir path, hafter.openForRead path⟩⟩

/-- Clocks that stand still within one second. -/
theorem same_answers_iff_same_seconds_lone :
    let cmds : List Command := [{ kind := .create, path := ['/', 'a'] }]
    (lone.applyAll (fun _ => 1) cmds).2 = (lone.applyAll (fun _ => 2) cmds).2 ∧
      (lone.applyAll (fun _ => 1) cmds).1.stat ['/', 'a'] =
        (lone.applyAll (fun _ => 2) cmds).1.stat ['/', 'a'] := by
  intro cmds
  have hsame := (same_answers_iff_same_seconds (σ := SortedList Char FileInfo) (fun _ => 1)
    (fun _ => 2) (.new 0) (.new 0) [] 0 none none).mpr (fun _ => by decide) cmds
  exact ⟨hsame.1, (hsame.2 ['/', 'a']).1⟩

/-- One master applies a command a second after the other, and shows another time. -/
theorem answers_show_the_clock :
    let cmds : List Command := [{ kind := .create, path := ['/', 'a'] }]
    ((lone.applyAll (fun _ => 0) cmds).1.stat ['/', 'a']).toOption.map (·.createdAtUnix) = some 0 ∧
      ((lone.applyAll (fun _ => 1000000000) cmds).1.stat ['/', 'a']).toOption.map
        (·.createdAtUnix) = some 1 := by
  decide +kernel

end VaultFS.Master
