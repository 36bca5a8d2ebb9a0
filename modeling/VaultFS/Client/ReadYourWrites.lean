import VaultFS.Client.Network
import VaultFS.Master.Cluster.Acknowledged

/-!
# Reading one's own writes

A client whose `FinalizeWrite` was acknowledged reads the file again. Its reads go to the first
master of its list that answers, which need not be the one that acknowledged the write, and a master
answers from what it has applied. If the masters that answer have applied the client's write, and
later commands for the path only write the same again, a read reports what was written unless it is
interrupted (`read_your_writes`).
-/

namespace VaultFS.Master

open Growth KeyValue SlashPath Metadata Cluster

namespace Tree

theorem apply_of_isSome {t : Tree} {cmd : Command} {q : List Char} (hq : q ≠ cmd.path)
    (h : (t q).isSome) : t.apply cmd q = t q := by
  rw [apply_of_ne hq, fillDirs_of_isSome h, ite_self]

/-- Commands for other paths, and those that write the same, leave what is stored. -/
theorem applyAll_of_same {t : Tree} {path : List Char} {e : Entry} {cmds : List Command}
    (ht : t path = some e) (h : ∀ cmd ∈ cmds, cmd.path = path →
      cmd.kind = .finalize ∧ Entry.file cmd.size cmd.chunkIDs = e) :
    t.applyAll cmds path = some e := by
  induction cmds generalizing t with
  | nil => exact ht
  | cons cmd cmds ih =>
      refine ih ?_ fun c hc => h c (List.mem_cons_of_mem _ hc)
      by_cases hpath : cmd.path = path
      · subst hpath
        obtain ⟨hkind, rfl⟩ := h cmd List.mem_cons_self rfl
        exact t.apply_finalize hkind
      · rw [apply_of_isSome (Ne.symm hpath) (by rw [ht]; rfl), ht]

end Tree

namespace Cluster

variable {M σ : Type*} [Store σ Char FileInfo] {init : M → Server σ} {clock : M → ℕ → Time}
  {w : World M σ}

/-- After the place `k` the committed commands for the path only write the same again. -/
def Undisturbed (w : World M σ) (k : ℕ) (path : List Char) (chunkIds : List String) (size : ℤ) :
    Prop :=
  ∀ (j : ℕ) e, k < j → w.committed[j]? = some e → e.cmd.path = path →
    e.cmd.Finalizes path chunkIds size

omit [Store σ Char FileInfo] in
theorem Undisturbed.of_later {w' : World M σ} {k : ℕ} {path : List Char}
    {chunkIds : List String} {size : ℤ} (h : Undisturbed w' k path chunkIds size)
    (hl : Later w w') : Undisturbed w k path chunkIds size := by
  intro j e hj he
  exact h j e hj <| getElem?_of_prefix hl.committed he

/-- What a master stores that has applied a write. -/
theorem view_of_applied [LawfulStore σ] (hw : Sound init clock w) {m : M} {k : ℕ} {e : Entry}
    {path : List Char} {chunkIds : List String} {size : ℤ} (hk : k < (w.hosts m).applied)
    (he : w.committed[k]? = some e) (hwrites : e.cmd.Finalizes path chunkIds size)
    (hafter : Undisturbed w k path chunkIds size) :
    Server.view (w.hosts m).server.ns path = some (.file size chunkIds) := by
  obtain ⟨hkind, rfl, rfl, rfl⟩ := hwrites
  have hreceived : (w.received m)[k]? = some e.cmd := by
    simp [World.received, List.getElem?_take_of_lt hk, he]
  have hsplit : w.received m =
      (w.received m).take k ++ e.cmd :: (w.received m).drop (k + 1) := by
    obtain ⟨hlt, hget⟩ := List.getElem?_eq_some_iff.mp hreceived
    rw [← hget, List.getElem_cons_drop, List.take_append_drop]
  rw [hw.server m, World.replay, Server.view_applyAll, hsplit, Tree.applyAll_append,
    Tree.applyAll_cons]
  refine Tree.applyAll_of_same (Tree.apply_finalize _ hkind) ?_
  intro cmd hcmd hpath
  obtain ⟨j, hj⟩ := List.mem_iff_getElem?.mp hcmd
  rw [List.getElem?_drop, World.received, List.getElem?_map] at hj
  obtain ⟨e', he', rfl⟩ := Option.map_eq_some_iff.mp hj
  have hcommitted := getElem?_of_prefix (List.take_prefix _ _) he'
  obtain ⟨hkind', -, hids, hsize⟩ := hafter _ e' (by omega) hcommitted hpath
  exact ⟨hkind', by rw [hids, hsize]⟩

end Cluster

theorem Server.lookup_of_view {σ : Type*} [Store σ Char FileInfo] {s : Server σ} {path : List Char}
    {size : ℤ} {chunkIds : List String}
    (h : Server.view s.ns path = some (.file size chunkIds)) (context : String) :
    ∃ fi, s.lookup context path = .ok fi ∧ fi.chunkIDs = chunkIds ∧ fi.size = size := by
  obtain ⟨fi, hfi, hentry⟩ := Option.map_eq_some_iff.mp h
  obtain ⟨-, hsize, hids⟩ := Entry.mk.inj hentry
  refine ⟨fi, ?_, hids, hsize⟩
  rw [Server.lookup, Namespace.stat_eq_ok.mpr hfi]

end VaultFS.Master

namespace VaultFS.Client

open Growth KeyValue Metadata Master Cluster Transition Interaction

/-- The failures a client has to expect: its masters cannot be reached or its context ends. -/
def Error.isInterruption : Error → Bool
  | .status st => st.code ∈ [.unavailable, .deadlineExceeded, .aborted, .canceled]
  | .context _ => true
  | .text _ => false
  | .wrapped _ err => err.isInterruption

/-- What a read reports is the written file, or it was interrupted. -/
def Reports (chunkIds : List String) (size : ℤ) : Except Error Server.FileInfoProto → Prop
  | .ok file => file.chunkIds = chunkIds ∧ file.size = size
  | .error err => err.isInterruption

variable {M σ : Type*} [Store σ Char FileInfo]

/-- Only masters that have applied the command at the place `k` answer reads. -/
def Network.caughtUp (N : Network M σ) (k : ℕ) : Network M σ :=
  { N with answers := fun w m => N.answers w m ∧ k < (w.hosts m).applied }

variable [DecidableEq M]

/-- A run of a client in a cluster whose loops wake only the callers of their own commands. -/
abbrev Network.Runs {α : Type} (N : Network M σ) (clock : M → ℕ → Time) :
    World M σ → Act M α → α → World M σ → Prop :=
  Run (step clock) OwnEntry (N.Serves clock)

variable {N : Network M σ} {init : M → Server σ} {clock : M → ℕ → Time} {w w' : World M σ}
  {rp : RetryPolicy} {addrs : List M} {path : List Char} {chunkIds : List String} {size : ℤ}

theorem Network.serves_path (w : World M σ) (op : Op M) (r : Res op) (w' : World M σ)
    (h : N.Serves clock w op r w') : Path (step clock) OwnEntry w w' :=
  h.path fun _ _ _ => trivial

/-- An attempt that succeeds has started a call that has returned without an error. -/
theorem finalizeAttempt_ok {m : M} {file : Server.FileInfoProto}
    (h : N.Runs clock w (finalizeAttempt path m chunkIds size) (.ok file) w') :
    ∃ (u : World M σ) (c : ℕ) (call : Call M), Path (step clock) OwnEntry w u ∧
      Path (step clock) OwnEntry u w' ∧ u.calls[c]? = some call ∧
      call.stage = .returned (.ok ()) ∧ call.master = m ∧
      call.cmd.Finalizes path chunkIds size := by
  obtain ⟨r, v, hrequest, hrest⟩ := run_bind h
  obtain ⟨x, y, hx, hserved, hy⟩ := run_op hrequest
  rcases hserved with ⟨rfl, hstep⟩ | ⟨-, st, -, rfl⟩
  · obtain ⟨r', hr', u, u', hu, hresponse, hu'⟩ := run_rpc hrest
    obtain ⟨u₁, u₂, hu₁, ⟨rfl, hanswer⟩, hu₂⟩ := run_op hresponse
    have hyu : Path (step clock) OwnEntry y u₂ := (hy.trans hu).trans hu₁
    rcases hanswer with ⟨call, res, hc, hstage, rfl⟩ | ⟨st, -, rfl⟩
    · have hcall : Path (step clock) OwnEntry x y := by
        refine .single ?_ hstep
        trivial
      cases res with
      | error st => cases hr'
      | ok _ =>
          -- the call that has returned is the one of this attempt
          have hhead : y.heads[x.calls.length]? = some (m, {
              kind := .finalize, path := path, chunkIDs := chunkIds, size := size
              opID := (x.hosts m).opSeq + 1 }) := by
            cases hstep
            simp [World.heads]
          have hlater := getElem?_of_prefix (Later.of_path hyu).heads hhead
          rw [World.heads_eq_some hc] at hlater
          obtain ⟨hm, hcmd⟩ := Prod.mk.inj (Option.some.inj hlater)
          refine ⟨u₂, _, call, (hx.trans hcall).trans hyu, hu₂.trans hu', hc, hstage, hm, ?_⟩
          rw [hcmd]
          exact ⟨rfl, rfl, rfl, rfl⟩
    · cases hr'
  · cases (run_ret hrest).1

/-- An acknowledged write is committed, and one of the client's masters has applied it. -/
theorem finalizeWrite_ok (hw : Path (step clock) OwnEntry (World.start init) w)
    {file : Server.FileInfoProto}
    (h : N.Runs clock w (finalizeWrite rp addrs path chunkIds size) (.ok file) w') :
    ∃ k e, w'.committed[k]? = some e ∧ e.cmd.Finalizes path chunkIds size ∧
      ∃ m ∈ addrs, k < (w'.hosts m).applied := by
  rcases callMaster_run Network.serves_path h with hends | ⟨-, hres⟩
  · cases hends with
    | @attempt m _ hm hatt =>
        obtain ⟨u, u', hu, hrun, hu'⟩ := hatt
        obtain ⟨v, c, call, huv, hvu', hc, hstage, rfl, hwrites⟩ := finalizeAttempt_ok hrun
        have hv := (hw.trans hu).trans huv
        have hdone := ((Honest.of_path hv).call c call hc).stage (Or.inr hstage)
        obtain ⟨k, hk, hcommitted, -⟩ := hdone.position (Sound.of_path hv) (World.heads_eq_some hc)
        have hlater := Later.of_path (hvu'.trans hu')
        exact ⟨k, _, getElem?_of_prefix hlater.committed hcommitted, hwrites, call.master, hm,
          hk.trans_le (hlater.applied call.master)⟩
  · cases hres

section Reads

variable [LawfulStore σ] {k : ℕ} {e : Cluster.Entry}
  (hlost : ∀ st, N.lost st → (Error.status st).isInterruption)
  (hdial : ∀ m ∈ addrs, ∀ err, ¬ N.undialable m err) (haddrs : addrs ≠ [])
  (hw : Path (step clock) OwnEntry (World.start init) w) (he : w.committed[k]? = some e)
  (hwrites : e.cmd.Finalizes path chunkIds size) (hafter : Undisturbed w' k path chunkIds size)
include hlost hdial haddrs hw he hwrites hafter

/-- What a client is answered by masters that have applied its write. -/
theorem callMaster_reports {α : Type} (answer : Server σ → Except Status α)
    {p : M → Act M (Except Status α)}
    (hp : ∀ m u r u', (N.caughtUp k).Runs clock u (p m) r u' →
      ∃ v, Path (step clock) OwnEntry u v ∧ Path (step clock) OwnEntry v u' ∧
        (N.caughtUp k).Answered v m answer r) {res : Except Error α}
    (h : (N.caughtUp k).Runs clock w (callMaster rp addrs fun m => rpc (p m)) res w') :
    (∃ s : Server σ, Server.view s.ns path = some (.file size chunkIds) ∧
      res = (answer s).mapError .status) ∨ ∃ err, res = .error err ∧ err.isInterruption := by
  rcases Network.callMaster_answered Network.serves_path (fun _ _ _ _ => id) haddrs answer hp h with
    ⟨m, -, v, hwv, hvw', ⟨-, hk⟩, rfl⟩ | ⟨err, rfl, hfails⟩
  · have hcommitted := getElem?_of_prefix (Later.of_path hwv).committed he
    have hview := view_of_applied (Sound.of_path (hw.trans hwv)) hk hcommitted hwrites
      (hafter.of_later (Later.of_path hvw'))
    exact Or.inl ⟨_, hview, rfl⟩
  · refine Or.inr ⟨err, rfl, ?_⟩
    cases hfails with
    | lost hst => exact hlost _ hst
    | context => rfl
    | undialable hm hund => exact absurd hund (hdial _ hm err)

theorem stat_reports {res : Except Error Server.FileInfoProto}
    (h : (N.caughtUp k).Runs clock w (stat rp addrs path) res w') : Reports chunkIds size res := by
  obtain ⟨r, v, hcall, hrest⟩ := run_bind h
  have hvw' := hrest.path Network.serves_path
  have hanswered := callMaster_reports hlost hdial haddrs hw he hwrites
    (hafter.of_later (Later.of_path hvw')) (·.stat path) ?_ hcall
  · rcases hanswered with ⟨s, hview, rfl⟩ | ⟨err, rfl, herr⟩
    · obtain ⟨fi, hfi, hids, hsize⟩ := Server.lookup_of_view hview "stat"
      rw [Server.stat, hfi] at hrest
      obtain ⟨rfl, -⟩ := run_ret hrest
      exact ⟨hids, hsize⟩
    · obtain ⟨rfl, -⟩ := run_ret hrest
      exact herr
  · intro m u r u' hask
    obtain ⟨x, y, hx, ⟨rfl, hr⟩, hy⟩ := run_op hask
    exact ⟨_, hx, hy, hr⟩

theorem openForRead_reports {res : Except Error Server.OpenForReadResponse}
    (h : (N.caughtUp k).Runs clock w (openForRead rp addrs path) res w') :
    Reports chunkIds size (res.map (·.file)) ∧
      ∀ resp, res = .ok resp → resp.locations.map (·.chunkId) = chunkIds := by
  have hanswered := callMaster_reports hlost hdial haddrs hw he hwrites hafter
    (·.openForRead path) ?_ h
  · rcases hanswered with ⟨s, hview, rfl⟩ | ⟨err, rfl, herr⟩
    · obtain ⟨fi, hfi, hids, hsize⟩ := Server.lookup_of_view hview "open for read"
      rw [Server.openForRead, hfi]
      refine ⟨⟨hids, hsize⟩, ?_⟩
      rintro resp ⟨⟩
      rw [List.map_map, ← hids]
      exact List.map_id _
    · exact ⟨herr, nofun⟩
  · intro m u r u' hask
    obtain ⟨x, y, hx, ⟨rfl, hr⟩, hy⟩ := run_op hask
    exact ⟨_, hx, hy, hr⟩

end Reads

/-- In runs in which every waiter that is found is one for a command of the same master: once
`FinalizeWrite` was acknowledged, every read that is answered by masters that have applied the
write, with nobody else writing to the path after it, reports what was written, unless it is
interrupted. All addresses of the client can be dialed, and a request that is not answered counts
as an interruption. -/
theorem read_your_writes [LawfulStore σ]
    (hlost : ∀ st, N.lost st → (Error.status st).isInterruption)
    (hdial : ∀ m ∈ addrs, ∀ err, ¬ N.undialable m err)
    (hw : Path (step clock) OwnEntry (World.start init) w) {file : Server.FileInfoProto}
    (hwrite : N.Runs clock w (finalizeWrite rp addrs path chunkIds size) (.ok file) w') :
    ∃ k e, w'.committed[k]? = some e ∧ e.cmd.Finalizes path chunkIds size ∧
      ∀ u u', Path (step clock) OwnEntry w' u → Undisturbed u' k path chunkIds size →
        (∀ res, (N.caughtUp k).Runs clock u (stat rp addrs path) res u' →
          Reports chunkIds size res) ∧
        ∀ res, (N.caughtUp k).Runs clock u (openForRead rp addrs path) res u' →
          Reports chunkIds size (res.map (·.file)) ∧
            ∀ resp, res = .ok resp → resp.locations.map (·.chunkId) = chunkIds := by
  obtain ⟨k, e, he, hwrites, m, hm, -⟩ := finalizeWrite_ok hw hwrite
  refine ⟨k, e, he, hwrites, ?_⟩
  intro u u' hu hafter
  have haddrs := List.ne_nil_of_mem hm
  have hwu := (hw.trans (hwrite.path Network.serves_path)).trans hu
  have he' := getElem?_of_prefix (Later.of_path hu).committed he
  exact ⟨fun res => stat_reports hlost hdial haddrs hwu he' hwrites hafter,
    fun res => openForRead_reports hlost hdial haddrs hwu he' hwrites hafter⟩

/-- All masters answer, and a request that is lost fails with `Unavailable`. -/
def Network.plain : Network M σ where
  lost st := st.code = .unavailable
  undialable _ _ := False
  answers _ _ := True
  replies _ := True

def writeCmd : Command := { kind := .finalize, path := ['/', 'a'], chunkIDs := ["c"], size := 1 }

/-- The first master accepts the command, which is committed, and applies it for its caller. -/
def writeEvents : List (Event Bool) :=
  [.register 0, .propose 0 true, .commit 0, .deliver true, .lookup true, .send true, .receive 0,
    .unregister 0]

def written : World Bool (SortedList Char FileInfo) :=
  final (guarded (step fun _ _ => 0) OwnEntry) pair (.call true writeCmd :: writeEvents)

def writtenFile : Server.FileInfoProto := ⟨['/', 'a'], false, 1, ["c"], 0, 0, 0⟩

theorem run_finalizeAttempt_written :
    Network.plain.Runs (fun _ _ => 0) pair (finalizeAttempt ['/', 'a'] true ["c"] 1)
      (.ok writtenFile) written := by
  have hpath : Path (step fun _ _ => 0) OwnEntry
      (final (guarded (step fun _ _ => 0) OwnEntry) pair [.call true writeCmd]) written :=
    Path.final_append (by decide +kernel)
  refine Run.bind (.op (Or.inl ⟨rfl, rfl⟩)) ?_
  refine Run.bind (a := .ok writtenFile) ?_ (.ret written _)
  refine Run.of_path hpath (.op ⟨rfl, Or.inl ?_⟩)
  exact ⟨⟨true, { writeCmd with opID := 1 }, .returned (.ok ()), true, none⟩, .ok (),
    by decide +kernel, rfl, by decide +kernel⟩

theorem read_your_writes_pair :
    ∃ k, Network.plain.Runs (fun _ _ => 0) pair
        (finalizeWrite .default [true] ['/', 'a'] ["c"] 1) (.ok writtenFile) written ∧
      (Network.plain.caughtUp k).Runs (fun _ _ => 0) written (stat .default [true] ['/', 'a'])
        (.ok writtenFile) written ∧
      Reports ["c"] 1 (.ok writtenFile) := by
  have hwrite : Network.plain.Runs (fun _ _ => 0) pair
      (finalizeWrite .default [true] ['/', 'a'] ["c"] 1) (.ok writtenFile) written :=
    run_callMaster (Network.calm pair) run_finalizeAttempt_written nofun
  have hlost : ∀ st : Status, st.code = .unavailable → (Error.status st).isInterruption := by
    intro st hst
    simp [Error.isInterruption, hst]
  have hstart : Path (step fun _ _ => 0) OwnEntry (World.start fun _ => Server.lone) pair := .refl
  obtain ⟨k, e, he, -, hreads⟩ := read_your_writes hlost (fun _ _ _ => id) hstart hwrite
  have hlength : written.committed.length = 1 := by decide +kernel
  have hk : k < 1 := hlength ▸ (List.getElem?_eq_some_iff.mp he).1
  have happlied : (written.hosts true).applied = 1 := by decide +kernel
  have hread : (Network.plain.caughtUp k).Runs (fun _ _ => 0) written
      (stat .default [true] ['/', 'a']) (.ok writtenFile) written := by
    refine Run.bind (a := .ok writtenFile) (run_callMaster (Network.calm written) ?_ nofun)
      (.ret written _)
    refine Run.bind (a := .ok writtenFile) (.op ⟨rfl, Or.inl ⟨⟨trivial, happlied ▸ hk⟩, ?_⟩⟩)
      (.ret written _)
    decide +kernel
  refine ⟨k, hwrite, hread, (hreads written written .refl ?_).1 _ hread⟩
  intro j e hj he
  have hlt := hlength ▸ (List.getElem?_eq_some_iff.mp he).1
  omega

/-- The second master cannot be reached for a moment, so that the write goes to the first one. The
second one, which is the first of the client's list, then answers the read before it has applied the
write. -/
theorem read_not_your_writes :
    let path := ['/', 'a']
    let notFound : Error := .status ⟨.notFound, "/a not found"⟩
    Network.plain.Runs (fun _ _ => 0) pair (finalizeWrite .default [false, true] path ["c"] 1)
        (.ok writtenFile) written ∧
      written.committed.map (·.cmd) = [{ writeCmd with opID := 1 }] ∧
      Network.plain.Runs (fun _ _ => 0) written (stat .default [false, true] path)
        (.error (.wrapped "client: stat /a: " notFound)) written ∧
      Network.plain.Runs (fun _ _ => 0) written (openForRead .default [false, true] path)
        (.error notFound) written := by
  intro path notFound
  have hlost : Network.plain.Runs (fun _ _ => 0) pair (finalizeAttempt path false ["c"] 1)
      (.error (.status ⟨.unavailable, "no connection"⟩)) pair :=
    Run.bind (.op (Or.inr ⟨rfl, ⟨.unavailable, "no connection"⟩, rfl, rfl⟩)) (.ret pair _)
  refine ⟨?_, by decide +kernel, ?_, ?_⟩
  · exact run_callMaster_next (Network.calm pair) hlost rfl
      (run_callMasterFrom (Network.calm pair) run_finalizeAttempt_written nofun)
  · refine Run.bind (a := .error notFound) (run_callMaster (Network.calm written) ?_ ?_)
      (.ret written _)
    · refine Run.bind (a := .error ⟨.notFound, "/a not found"⟩) (.op ⟨rfl, Or.inl ⟨trivial, ?_⟩⟩)
        (.ret written _)
      decide +kernel
    · rintro err ⟨⟩
      rfl
  · refine run_callMaster (Network.calm written) ?_ ?_
    · refine Run.bind (a := .error ⟨.notFound, "/a not found"⟩) (.op ⟨rfl, Or.inl ⟨trivial, ?_⟩⟩)
        (.ret written _)
      decide +kernel
    · rintro err ⟨⟩
      rfl

end VaultFS.Client
