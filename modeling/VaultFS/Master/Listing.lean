import VaultFS.Master.Inodes
import VaultFS.Traversal.Basic

/-!
# Finding a file by listing

A file that was written should be found by listing the root, the directories shown there, and so
on. The store keeps paths as they are sent, `ensureParents` trims and splits them, and `ListDir`
cuts one slash off the end and matches what is left as a string; the three agree on normal paths
and on no others. A path with two slashes in a row, when they are not at its beginning, makes a
directory whose path ends in a slash, and such a directory is listed inside itself.
-/

namespace VaultFS.Metadata.Namespace

open KeyValue SlashPath

variable {σ : Type*} [Store σ Char FileInfo]

/-- What `ListDir` shows; nothing when it fails. -/
def entries (ns : Namespace σ) (dir : List Char) : List FileInfo :=
  match ns.listDir dir with
  | .ok l => l
  | .error _ => []

/-- How a walk goes on from an entry: into a directory, by its path. -/
def subdir (fi : FileInfo) : Option (List Char) := if fi.isDir then some fi.path else none

def walk (ns : Namespace σ) (n : ℕ) : List FileInfo := Traversal.walk ns.entries subdir n ['/']

def WalkEnds (ns : Namespace σ) (n : ℕ) : Prop := Traversal.ends ns.entries subdir n ['/'] = true

/-- The second directory is shown when the first one is listed. -/
def Inside (ns : Namespace σ) : List Char → List Char → Prop := Traversal.Inside ns.entries subdir

/-- The walk from the root ends, lists no directory inside itself and shows the path once. -/
structure FoundByListing (ns : Namespace σ) (p : List Char) : Prop where
  ends : ∃ n, ns.WalkEnds n
  acyclic : ∀ dir, Relation.ReflTransGen ns.Inside ['/'] dir → ¬Relation.TransGen ns.Inside dir dir
  once : ∀ n, ns.WalkEnds n → (ns.walk n).countP (fun fi => fi.path = p) = 1

variable {ns : Namespace σ} {dir p q : List Char} {fi : FileInfo}

theorem subdir_eq_some : subdir fi = some q ↔ fi.isDir = true ∧ fi.path = q := by
  unfold subdir
  cases fi.isDir with
  | false => simp
  | true => simp

theorem entries_root (ns : Namespace σ) : ns.entries ['/'] = ns.children ['/'] := rfl

theorem entries_of_dir (hfi : ns.find dir = some fi) (hdir : fi.isDir = true) :
    ns.entries dir = ns.children dir := by
  unfold entries listDir
  split_ifs
  · rfl
  · rw [stat_eq_ok.mpr hfi]
    simp [hdir]

/-- What is listed for a directory is among its children. -/
theorem mem_children_of_mem_entries (h : fi ∈ ns.entries dir) : fi ∈ ns.children dir := by
  unfold entries listDir at h
  split_ifs at h
  · exact h
  · cases hstat : ns.stat dir with
    | error err => simp [hstat] at h
    | ok fi' =>
        simp only [hstat] at h
        split_ifs at h
        · exact h
        · cases h

theorem nsKey_child (dir name : List Char) :
    nsKey (trimSlash dir ++ '/' :: name) = nsPrefix ++ trimSlash dir ++ ['/'] ++ name := by
  simp [nsKey]

variable [LawfulStore σ]

theorem mem_children : fi ∈ ns.children dir ↔
    ∃ name, '/' ∉ name ∧ ns.find (trimSlash dir ++ '/' :: name) = some fi := by
  simp only [children, List.mem_map, List.mem_filter, decide_eq_true_eq, find]
  constructor
  · rintro ⟨⟨k, v⟩, ⟨hscan, hname⟩, rfl⟩
    obtain ⟨⟨name, rfl⟩, hget⟩ := (mem_scan ..).mp hscan
    rw [List.drop_left] at hname
    exact ⟨name, hname, by rw [nsKey_child, hget]⟩
  · rintro ⟨name, hname, hget⟩
    refine ⟨(nsKey (trimSlash dir ++ '/' :: name), fi), ⟨(mem_scan ..).mpr ⟨?_, hget⟩, ?_⟩, rfl⟩
    · rw [nsKey_child]
      exact List.prefix_append _ _
    · rw [nsKey_child, List.drop_left]
      exact hname

/-- A directory with one child. -/
theorem children_eq_singleton {c : List Char} (hc : '/' ∉ c)
    (hfi : ns.find (trimSlash dir ++ '/' :: c) = some fi)
    (honly : ∀ name, '/' ∉ name → ns.find (trimSlash dir ++ '/' :: name) ≠ none → name = c) :
    ns.children dir = [fi] := by
  have hpairs : (scan ns.store (nsPrefix ++ trimSlash dir ++ ['/'])).filter
      (fun x => '/' ∉ x.1.drop (nsPrefix ++ trimSlash dir ++ ['/']).length) =
      [(nsKey (trimSlash dir ++ '/' :: c), fi)] := by
    refine eq_of_mem_iff ((pairwise_scan _ _).filter _) (List.pairwise_singleton _ _) ?_
    rintro ⟨k, v⟩
    rw [List.mem_filter, mem_scan, List.mem_singleton, decide_eq_true_eq]
    constructor
    · rintro ⟨⟨⟨name, rfl⟩, hget⟩, hname⟩
      rw [List.drop_left] at hname
      rw [← nsKey_child] at hget ⊢
      obtain rfl := honly name hname (by rw [find, hget]; exact Option.some_ne_none v)
      rw [find, hget, Option.some.injEq] at hfi
      rw [hfi]
    · rintro ⟨⟩
      refine ⟨⟨⟨c, (nsKey_child dir c).symm⟩, hfi⟩, ?_⟩
      rw [nsKey_child, List.drop_left]
      exact hc
  simp only [children, hpairs, List.map_cons, List.map_nil]

end VaultFS.Metadata.Namespace

namespace VaultFS.Master

open KeyValue SlashPath Metadata Namespace

variable {σ : Type*} [Store σ Char FileInfo]

/-- The namespace holds a file and the directories that were made for it. -/
structure FirstWrite (ns : Namespace σ) (p : List Char) : Prop where
  path : ∀ q fi, ns.find q = some fi → fi.path = q
  file : ∃ fi, ns.find p = some fi ∧ fi.isDir = false
  dir : ∀ q ∈ parents '/' p, ∃ fi, ns.find q = some fi ∧ fi.isDir = true
  only : ∀ q fi, ns.find q = some fi → q = p ∨ q ∈ parents '/' p

theorem trimSlash_render {parts : List (List Char)} (h : ∀ c ∈ parts, Component '/' c) :
    trimSlash (render '/' parts) = render '/' parts := by
  rcases eq_or_ne parts [] with rfl | hne
  · rfl
  · have hr : render '/' parts ≠ [] := by
      obtain ⟨c, cs, rfl⟩ := List.exists_cons_of_ne_nil hne
      simp [render_cons]
    rw [trimSlash, if_neg]
    rw [List.getLast?_eq_some_getLast hr, Option.some.injEq]
    exact getLast_render_ne h hne hr

theorem render_append (parts parts' : List (List Char)) :
    render '/' (parts ++ parts') = render '/' parts ++ render '/' parts' :=
  List.flatMap_append

namespace FirstWrite

variable [LawfulStore σ] {ns : Namespace σ} {p : List Char}

/-- In a directory above a normal path there is one entry, the next one on the way to it. -/
theorem children (h : FirstWrite ns p) {parts rest : List (List Char)} {c dir : List Char}
    (hparts : ∀ d ∈ parts ++ c :: rest, Component '/' d)
    (hp : p = render '/' (parts ++ c :: rest)) (hdir : trimSlash dir = render '/' parts) :
    ∃ fi, ns.children dir = [fi] ∧ ns.find (render '/' (parts ++ [c])) = some fi ∧
      fi.isDir = !rest.isEmpty := by
  have hnormal : Normal '/' p := Or.inr ⟨_, by simp, hparts, hp⟩
  have hsep : '/' ∉ c := (hparts c (by simp)).2
  have hchild : render '/' (parts ++ [c]) = trimSlash dir ++ '/' :: c := by
    rw [render_append, hdir, render_cons, render_nil, List.append_nil]
  have hpath : p = trimSlash dir ++ '/' :: (c ++ render '/' rest) := by
    rw [hp, render_append, hdir, render_cons]
  obtain ⟨fi, hfi, hisDir⟩ : ∃ fi, ns.find (render '/' (parts ++ [c])) = some fi ∧
      fi.isDir = !rest.isEmpty := by
    cases rest with
    | nil =>
        rw [← hp]
        exact h.file
    | cons d rest =>
        refine h.dir _ ((mem_parents hnormal _).mpr ⟨by simp [render_append, render_cons], ?_⟩)
        rw [hp, show parts ++ c :: d :: rest = parts ++ [c] ++ d :: rest by simp,
          render_append _ (d :: rest), render_cons d]
        exact (List.prefix_append_right_inj _).mpr ⟨_, rfl⟩
  refine ⟨fi, children_eq_singleton hsep (hchild ▸ hfi) ?_, hfi, hisDir⟩
  intro name hname hstored
  obtain ⟨fi', hfi'⟩ := Option.ne_none_iff_exists'.mp hstored
  -- what is left of the path after the name begins with a slash, and the name has none
  have hrest : ∀ r, name = c ++ r → (r = [] ∨ ∃ r', r = '/' :: r') → name = c := by
    rintro r rfl (rfl | ⟨r', rfl⟩)
    · exact List.append_nil c
    · exact absurd (by simp) hname
  rcases h.only _ fi' hfi' with heq | habove
  · rw [hpath, List.append_cancel_left_eq, List.cons.injEq] at heq
    refine hrest _ heq.2 ?_
    cases rest with
    | nil => exact Or.inl rfl
    | cons d rest => exact Or.inr ⟨_, render_cons d rest⟩
  · have hpre := ((mem_parents hnormal _).mp habove).2
    rw [hpath, List.append_assoc, List.prefix_append_right_inj, List.cons_append,
      List.cons_prefix_cons] at hpre
    obtain ⟨r, rfl, hr⟩ := prefix_of_component hsep hpre.2
    refine hrest r rfl ?_
    cases r with
    | nil => exact Or.inl rfl
    | cons x r =>
        cases rest with
        | nil => simp at hr
        | cons d rest =>
            rw [render_cons, List.cons_append, List.cons_prefix_cons] at hr
            exact Or.inr ⟨r, by rw [hr.1]⟩

/-- The walk from a directory above a normal path. -/
theorem walk_from (h : FirstWrite ns p) {parts rest : List (List Char)} {dir : List Char}
    (hparts : ∀ d ∈ parts ++ rest, Component '/' d) (hp : p = render '/' (parts ++ rest))
    (hrest : rest ≠ []) (hdir : trimSlash dir = render '/' parts)
    (hlist : ns.entries dir = ns.children dir) :
    Traversal.ends ns.entries subdir rest.length dir = true ∧
      (Traversal.walk ns.entries subdir rest.length dir).countP (fun fi => fi.path = p) = 1 := by
  induction rest generalizing parts dir with
  | nil => exact absurd rfl hrest
  | cons c rest ih =>
      obtain ⟨fi, hchildren, hfi, hisDir⟩ := h.children hparts hp hdir
      have hpath := h.path _ fi hfi
      rw [List.length_cons, Traversal.ends, Traversal.walk, hlist, hchildren]
      cases rest with
      | nil =>
          have henter : subdir fi = none := by simp [subdir, hisDir]
          have hself : fi.path = p := hpath.trans hp.symm
          simp [henter, hself]
      | cons d rest =>
          have hsplit : parts ++ c :: d :: rest = parts ++ [c] ++ d :: rest := by simp
          have henter : subdir fi = some (render '/' (parts ++ [c])) := by
            simp [subdir, hisDir, hpath]
          obtain ⟨hends, hcount⟩ := ih (hsplit ▸ hparts) (hsplit ▸ hp) (by simp)
            (trimSlash_render fun e he => hparts e (by
              rw [hsplit]
              exact List.mem_append_left _ he))
            (entries_of_dir hfi (by simp [hisDir]))
          have hne : fi.path ≠ p := by
            intro heq
            have hlen := congrArg List.length (hpath.symm.trans heq)
            rw [hp, hsplit, render_append _ (d :: rest), render_cons d] at hlen
            simp at hlen
          simp only [List.all_cons, List.all_nil, henter, Option.elim_some, hends, Bool.and_true,
            List.flatMap_cons, List.flatMap_nil, List.append_nil, true_and]
          rw [List.countP_cons_of_neg (by simpa using hne)]
          exact hcount

/-- A normal path is found. -/
theorem found (h : FirstWrite ns p) (hnormal : Normal '/' p) : ns.FoundByListing p := by
  obtain ⟨n, hends, hcount⟩ : ∃ n, Traversal.ends ns.entries subdir n ['/'] = true ∧
      (Traversal.walk ns.entries subdir n ['/']).countP (fun fi => fi.path = p) = 1 := by
    rcases hnormal with rfl | ⟨parts, hne, hparts, hp⟩
    · obtain ⟨fi, hfi, hisDir⟩ := h.file
      have hchildren : ns.children ['/'] = [fi] := by
        refine children_eq_singleton (c := []) (by simp) hfi fun name hname hstored => ?_
        obtain ⟨fi', hfi'⟩ := Option.ne_none_iff_exists'.mp hstored
        rcases h.only _ fi' hfi' with heq | habove
        · exact (List.cons.inj heq).2
        · cases habove
      have henter : subdir fi = none := by simp [subdir, hisDir]
      have hself : fi.path = ['/'] := h.path _ fi hfi
      refine ⟨1, ?_⟩
      simp [Traversal.ends, Traversal.walk, entries_root, hchildren, henter, hself]
    · have hparts' : ∀ c ∈ [] ++ parts, Component '/' c := hparts
      have hp' : p = render '/' ([] ++ parts) := hp
      exact ⟨_, h.walk_from hparts' hp' hne rfl (entries_root ns)⟩
  refine ⟨⟨n, hends⟩, fun dir hreach => Traversal.not_transGen_of_ends hends hreach, ?_⟩
  intro m hm
  rw [Namespace.walk, Traversal.walk_eq_of_ends hm hends]
  exact hcount

variable {dir : List Char}

/-- A directory that the walk lists, other than the root, is stored. -/
theorem stored_of_reach (h : FirstWrite ns p) (hreach : Relation.ReflTransGen ns.Inside ['/'] dir) :
    dir = ['/'] ∨ ∃ fi, ns.find dir = some fi ∧ fi.isDir = true := by
  rcases Relation.ReflTransGen.cases_tail hreach with heq | ⟨dir', -, fi, hfi, hsub⟩
  · exact Or.inl heq
  · obtain ⟨hisDir, hpath⟩ := subdir_eq_some.mp hsub
    obtain ⟨name, -, hfind⟩ := mem_children.mp (mem_children_of_mem_entries hfi)
    obtain rfl : dir = trimSlash dir' ++ '/' :: name := hpath.symm.trans (h.path _ fi hfind)
    exact Or.inr ⟨fi, hfind, hisDir⟩

/-- If no directory is listed inside itself, the walk lists normal directories only. -/
theorem normal_of_reach (h : FirstWrite ns p)
    (hacyclic : ∀ dir, Relation.ReflTransGen ns.Inside ['/'] dir →
      ¬Relation.TransGen ns.Inside dir dir)
    (hreach : Relation.ReflTransGen ns.Inside ['/'] dir) :
    ∃ parts, (∀ c ∈ parts, Component '/' c) ∧ trimSlash dir = render '/' parts := by
  induction hreach with
  | refl => exact ⟨[], by simp, rfl⟩
  | @tail dir dir' hreach hin ih =>
      obtain ⟨parts, hparts, htrim⟩ := ih
      have hreach' := hreach.tail hin
      obtain ⟨fi, hfi, hsub⟩ := hin
      obtain ⟨hisDir, hpath⟩ := subdir_eq_some.mp hsub
      obtain ⟨name, hname, hfind⟩ := mem_children.mp (mem_children_of_mem_entries hfi)
      obtain rfl : dir' = trimSlash dir ++ '/' :: name := hpath.symm.trans (h.path _ fi hfind)
      rcases eq_or_ne name [] with rfl | hne
      · -- without its last slash the directory is the one that shows it, so it shows itself
        have htrim' : trimSlash (trimSlash dir ++ ['/']) = trimSlash dir := by
          rw [trimSlash, if_pos (by simp), List.dropLast_concat]
        refine absurd (.single ⟨fi, ?_, hsub⟩) (hacyclic _ hreach')
        rw [entries_of_dir hfind hisDir]
        exact mem_children.mpr ⟨[], hname, by rw [htrim', hfind]⟩
      · have hparts' : ∀ c ∈ parts ++ [name], Component '/' c :=
          List.forall_mem_append.mpr ⟨hparts, List.forall_mem_singleton.mpr ⟨hne, hname⟩⟩
        refine ⟨parts ++ [name], hparts', ?_⟩
        rw [htrim, ← trimSlash_render hparts', render_append, render_cons, render_nil,
          List.append_nil]

/-- A path that is found is normal. -/
theorem normal_of_found (h : FirstWrite ns p) (hfound : ns.FoundByListing p) : Normal '/' p := by
  obtain ⟨n, hends⟩ := hfound.ends
  obtain ⟨fi, hfi, hpath⟩ : ∃ fi ∈ ns.walk n, fi.path = p := by
    have hpos : 0 < (ns.walk n).countP (fun fi => fi.path = p) := by
      rw [hfound.once n hends]
      exact Nat.one_pos
    simpa using List.countP_pos_iff.mp hpos
  obtain ⟨dir, hreach, hentry⟩ := Traversal.exists_of_mem_walk hfi
  obtain ⟨parts, hparts, htrim⟩ := h.normal_of_reach hfound.acyclic hreach
  obtain ⟨name, hname, hfind⟩ := mem_children.mp (mem_children_of_mem_entries hentry)
  have hp : p = render '/' parts ++ '/' :: name := by
    rw [← htrim, ← hpath, h.path _ fi hfind]
  rcases eq_or_ne name [] with rfl | hne
  · cases parts with
    | nil => exact Or.inl hp
    | cons c parts =>
        -- the directory would be one of the path's parents, and it is too long for that
        exfalso
        rcases h.stored_of_reach hreach with rfl | ⟨fi', hfi', hisDir⟩
        · simp [trimSlash, render_cons] at htrim
        · have hmem : dir ∈ parents '/' p := by
            refine (h.only dir fi' hfi').resolve_left ?_
            rintro rfl
            obtain ⟨fi'', hfi'', hfile⟩ := h.file
            rw [hfi', Option.some.injEq] at hfi''
            rw [← hfi'', hisDir] at hfile
            cases hfile
          have hdir : (render '/' (c :: parts)).length ≤ dir.length := by
            rw [← htrim, trimSlash]
            split_ifs
            · exact (List.dropLast_sublist dir).length_le
            · exact le_rfl
          have hle := length_le_of_mem_parents hmem
          rw [hp, render_cons, List.cons_append] at hle
          have htrim' : (trim '/' ('/' :: (c ++ render '/' parts ++ ['/']))).length ≤
              (c ++ render '/' parts).length := length_trim_le _
          rw [render_cons, List.length_cons] at hdir
          omega
  · refine Or.inr ⟨parts ++ [name], by simp, ?_, ?_⟩
    · exact List.forall_mem_append.mpr ⟨hparts, List.forall_mem_singleton.mpr ⟨hne, hname⟩⟩
    · rw [hp, render_append, render_cons, render_nil, List.append_nil]

end FirstWrite

namespace Server

variable [LawfulStore σ]

theorem firstWrite_apply {s : Server σ} (hs : s.ns = .empty) (clock : ℕ → Time) {cmd : Command}
    (hkind : cmd.kind ≠ .delete) : FirstWrite (s.apply clock cmd).1.ns cmd.path := by
  have hview : view (s.apply clock cmd).1.ns = Tree.apply (fun _ => none) cmd := by
    rw [(view_apply clock s cmd).1, hs, view_empty]
  have hother : ∀ q, q ≠ cmd.path → view (s.apply clock cmd).1.ns q =
      if q ∈ parents '/' cmd.path then some .dir else none := by
    intro q hq
    rw [hview, Tree.apply_of_ne hq, if_pos ⟨hkind, rfl⟩]
    simp [Tree.fillDirs]
  refine ⟨?_, ?_, ?_, ?_⟩
  · intro q fi hfi
    have hstep := s.inode_apply clock cmd q
    rw [hs, Namespace.find_empty, hfi] at hstep
    cases hstep with
    | created _ _ _ _ hpath => exact hpath
  · have hself : view (s.apply clock cmd).1.ns cmd.path = cmd.write.apply none := by
      rw [hview, Tree.apply_self]
    cases hcmd : cmd.kind with
    | delete => exact absurd hcmd hkind
    | create =>
        rw [Command.write, hcmd] at hself
        obtain ⟨fi, hfi, hentry⟩ := Option.map_eq_some_iff.mp hself
        exact ⟨fi, hfi, congrArg Entry.isDir hentry⟩
    | finalize =>
        rw [Command.write, hcmd] at hself
        obtain ⟨fi, hfi, hentry⟩ := Option.map_eq_some_iff.mp hself
        exact ⟨fi, hfi, congrArg Entry.isDir hentry⟩
  · intro q hq
    have hne : q ≠ cmd.path := by
      rintro rfl
      exact self_notMem_parents _ hq
    have hdir := hother q hne
    rw [if_pos hq] at hdir
    obtain ⟨fi, hfi, hentry⟩ := Option.map_eq_some_iff.mp hdir
    exact ⟨fi, hfi, congrArg Entry.isDir hentry⟩
  · intro q fi hfi
    by_contra! hnot
    have hnone := hother q hnot.1
    rw [if_neg hnot.2, view_eq_none, hfi] at hnone
    cases hnone

/-- **Finding by listing.** A path that is written to the empty namespace is found by listing
exactly when it is normal: it is the root, or it begins with a slash, has no two slashes in a row
and does not end with one. -/
theorem foundByListing_iff (leases : LeaseManager) (chunkNodes : List NodeInfo) (rf : ℤ)
    (chunkMap : Option ChunkMap) (clock : ℕ → Time) (cmd : Command) (hkind : cmd.kind ≠ .delete) :
    let s : Server σ := .new .empty leases chunkNodes rf chunkMap
    (s.apply clock cmd).2 = .ok () ∧
      ((s.apply clock cmd).1.ns.FoundByListing cmd.path ↔ Normal '/' cmd.path) := by
  intro s
  have hfirst : FirstWrite (s.apply clock cmd).1.ns cmd.path := firstWrite_apply rfl clock hkind
  exact ⟨(view_apply clock s cmd).2, hfirst.normal_of_found, hfirst.found⟩

theorem foundByListing_iff_lone :
    let clock : ℕ → Time := fun n => n
    let cmd : Command := { kind := .finalize, path := ['/', 'a', '/', 'b'], chunkIDs := ["x"] }
    cmd.kind ≠ .delete ∧ (lone.apply clock cmd).2 = .ok () ∧
      ((lone.apply clock cmd).1.ns.FoundByListing cmd.path ↔ Normal '/' cmd.path) := by
  intro clock cmd
  have hkind : cmd.kind ≠ .delete := by decide
  exact ⟨hkind, foundByListing_iff (.new 0) [] 0 none clock cmd hkind⟩

/-- A path that does not begin with a slash is shown nowhere, and two slashes in a row make a
directory that is listed inside itself. -/
theorem not_foundByListing :
    let clock : ℕ → Time := fun n => n
    let s := lone.apply clock { kind := .create, path := ['a'] }
    let s' := lone.apply clock { kind := .create, path := ['/', 'a', '/', '/', 'b'] }
    (s.2 = .ok () ∧ s.1.ns.WalkEnds 1 ∧ s.1.ns.walk 1 = [] ∧ ¬s.1.ns.FoundByListing ['a']) ∧
      s'.2 = .ok () ∧ s'.1.ns.Inside ['/', 'a', '/'] ['/', 'a', '/'] ∧
        ¬s'.1.ns.FoundByListing ['/', 'a', '/', '/', 'b'] := by
  intro clock s s'
  have hends : s.1.ns.WalkEnds 1 := by
    unfold WalkEnds
    decide +kernel
  have hwalk : s.1.ns.walk 1 = [] := by decide +kernel
  have hroot : s'.1.ns.Inside ['/'] ['/', 'a'] := by
    unfold Inside Traversal.Inside
    decide +kernel
  have ha : s'.1.ns.Inside ['/', 'a'] ['/', 'a', '/'] := by
    unfold Inside Traversal.Inside
    decide +kernel
  have hself : s'.1.ns.Inside ['/', 'a', '/'] ['/', 'a', '/'] := by
    unfold Inside Traversal.Inside
    decide +kernel
  refine ⟨⟨by decide +kernel, hends, hwalk, ?_⟩, by decide +kernel, hself, ?_⟩
  · intro hfound
    have honce := hfound.once 1 hends
    rw [hwalk] at honce
    cases honce
  · intro hfound
    exact hfound.acyclic _ (.tail (.single hroot) ha) (.single hself)

end Server

end VaultFS.Master
