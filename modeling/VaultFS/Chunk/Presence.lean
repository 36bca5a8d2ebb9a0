import VaultFS.Chunk.Integrity

/-!
# Chunks stay until they are deleted

The file of a chunk is never replaced by nothing but through `DeleteChunk`: threads rename only
temporary files, and remove only those and what they were asked to delete (`Op.Gentle`). So a file
that is there at some moment is there later, or its deletion has been logged in between (`Since`).

`WriteChunk` returns an ID only if it has found the ID in flight or has seen the file at its place
(`Commits`). Between the start of the call and its return there was thus a moment with the file, or
the log tells that the ID was in flight (`Excused`).
-/

namespace VaultFS.Chunk

open Interaction KeyValue Metadata

variable {cfg : Config} {start : FS} {data : List UInt8} {s t : Shared} {n i : ℕ}

section Programs

/-- The operation takes away no chunk that it is not asked to delete. -/
def Op.Gentle (cfg : Config) : Op → Prop
  | .rename old _ => ∀ data, dest cfg data ≠ old
  | .remove p remover => remover.Entitled cfg p
  | _ => True

theorem Op.Harmless.gentle {o : Op} (h : o.Harmless cfg) : o.Gentle cfg := by
  cases o with
  | remove p remover => exact h
  | rename old new => exact h.elim
  | _ => trivial

theorem Op.Writing.gentle {o : Op} (h : o.Writing cfg) : o.Gentle cfg := by
  cases o with
  | rename old new => exact h
  | remove p remover =>
      obtain ⟨rfl, hp⟩ := h
      exact hp
  | _ => trivial

theorem only_call (call : Call) : (call.prog cfg).Only (Op.Gentle cfg) := by
  cases call with
  | write data => exact .bind ((only_writeChunk data).imp fun _ ho => ho.gentle) fun _ => trivial
  | replicate req =>
      exact .bind ((only_replicateChunk req).imp fun _ ho => ho.gentle) fun _ => trivial
  | delete id =>
      have honly : (deleteChunk cfg id (.delete id)).Only (Op.Gentle cfg) :=
        only_deleteChunk trivial trivial rfl
      exact .bind honly fun _ => trivial
  | sweep => exact .bind (only_sweep.imp fun _ ho => ho.gentle) fun _ => trivial

/-- The answer tells that the ID is in flight or that the file is in its place. -/
def Commits (cfg : Config) (data : List UInt8) : Op → Answer → Prop
  | .enter _ data', a => a = .flag true ∧ data' = data
  | .stat p, a => a = .done ∧ p = dest cfg data
  | .rename _ new, a => a.Ok ∧ new = dest cfg data
  | _, _ => False

/-- The call has not been successful. -/
def Failed {ε : Type} (res : Except ε ChunkID) : Prop := ∀ id, res ≠ .ok id

theorem failed_error {ε : Type} (err : ε) : Failed (.error err) := by
  intro id h
  cases h

theorem until_op {o : Op} : (Prog.op o : Act Answer).Until (Commits cfg data) fun _ => True :=
  .op fun _ => Or.inr trivial

/-- An operation that commits with some of its answers. -/
theorem until_unless {o : Op} {P : Answer → Prop} (h : ∀ a, P a → Commits cfg data o a) :
    (Prog.op o : Act Answer).Until (Commits cfg data) fun a => ¬ P a :=
  .op fun a => (em (P a)).imp_left (h a)

theorem until_commit (id : ChunkID) (tmpName : Path) :
    (commit id data tmpName (dest cfg data)).Until (Commits cfg data) Failed := by
  rw [commit]
  refine .bind until_op fun a _ => ?_
  split
  · exact .bind until_op fun _ _ => failed_error _
  · refine .bind until_op fun a _ => ?_
    split
    · exact .bind until_op fun _ _ => failed_error _
    · refine .bind until_op fun a _ => ?_
      split
      · exact failed_error _
      · refine .bind (until_unless fun a (hok : a.Ok) => ⟨hok, rfl⟩) fun a hfailed => ?_
        split
        · exact failed_error _
        · rename_i hok
          exact absurd (fun err stored heq => hok err stored heq) hfailed

theorem until_persist (id : ChunkID) :
    (persist id data (dest cfg data)).Until (Commits cfg data) Failed := by
  rw [persist]
  refine .bind (until_unless fun a (ha : a = .done) => ⟨ha, rfl⟩) fun a ha => ?_
  split
  · exact absurd rfl ha
  · refine .bind until_op fun a _ => ?_
    split
    · exact failed_error _
    · refine .bind until_op fun a _ => ?_
      split
      · exact .bind (until_commit id _) fun res hres => .bind until_op fun _ _ => hres
      · exact failed_error _
      · exact failed_error _

theorem until_writeChunk (data : List UInt8) :
    (writeChunk cfg data).Until (Commits cfg data) Failed := by
  rw [writeChunk]
  refine .bind until_op fun a _ => ?_
  split
  · exact failed_error _
  · refine .bind (until_unless fun a (ha : a = .flag true) => ⟨ha, rfl⟩) fun a ha => ?_
    split
    · exact absurd rfl ha
    · exact .bind (until_persist _) fun res hres => .bind until_op fun _ _ => hres

end Programs

section Steps

/-- Why the file of the data can be missing: it was deleted, or a `WriteChunk` of the data has found
the ID in flight and has not waited for the file. -/
def Excused (cfg : Config) (data : List UInt8) (log : List Happening) : Prop :=
  (∃ id, path cfg.root id = dest cfg data ∧ .deleted id ∈ log) ∨
    ∃ i, .called i data ∈ log ∧ .joined i ∈ log

theorem Excused.mono {log log' : List Happening} (h : Excused cfg data log) (hsub : log ⊆ log') :
    Excused cfg data log' :=
  h.imp (fun ⟨id, hpath, hid⟩ => ⟨id, hpath, hsub hid⟩) fun ⟨i, hcalled, hjoined⟩ =>
    ⟨i, hsub hcalled, hsub hjoined⟩

/-- The file of the data is there, or the log from the `n`-th entry on tells why not. -/
def Since (cfg : Config) (data : List UInt8) (n : ℕ) (s : Shared) : Prop :=
  (get s.files (dest cfg data)).isSome ∨ Excused cfg data (s.log.drop n)

theorem Since.of_isSome (h : Since cfg data n s) (hlog : s.log <+: t.log)
    (hfile : (get s.files (dest cfg data)).isSome → (get t.files (dest cfg data)).isSome) :
    Since cfg data n t :=
  h.imp hfile fun hexcused => hexcused.mono (hlog.drop n).subset

/-- What a step adds to the log excuses a missing file. -/
theorem since_of_append {new : List Happening} (h : Excused cfg data new)
    (hlog : t.log = s.log ++ new) (hn : n ≤ s.log.length) : Since cfg data n t := by
  refine Or.inr (h.mono ?_)
  rw [hlog, List.drop_append_of_le_length hn]
  exact List.subset_append_right _ _

theorem serve_log {o : Op} {a : Answer} (h : serve cfg i s o a = some t) : s.log <+: t.log := by
  cases served h with
  | joined | entered | renamed | removed => exact List.prefix_append _ _
  | _ => exact List.prefix_rfl

theorem isSome_get_put {files : FS} {p k : Path} {content : List UInt8}
    (h : (get files k).isSome) : (get (put files p content) k).isSome := by
  rw [get_put]
  split
  · rfl
  · exact h

theorem isSome_get_overwrite {files : FS} {p k : Path} {content : List UInt8}
    (h : (get files k).isSome) : (get (overwrite files p content) k).isSome := by
  unfold overwrite
  split
  · exact isSome_get_put h
  · exact h

theorem Since.serve {o : Op} {a : Answer} (h : Since cfg data n s) (ho : o.Gentle cfg)
    (hs : serve cfg i s o a = some t) (hn : n ≤ s.log.length) : Since cfg data n t := by
  have hlog := serve_log hs
  cases served hs with
  | created => exact h.of_isSome hlog isSome_get_put
  | wrote | wroteInPart => exact h.of_isSome hlog isSome_get_overwrite
  | @renamed old new content hget =>
      refine h.of_isSome hlog fun hthere => isSome_get_put ?_
      rwa [get_delete_of_ne _ (ho data)]
  | @removed p remover hget =>
      by_cases hp : dest cfg data = p
      · -- the file goes, and the log says so
        have hdeleted : ∃ id, path cfg.root id = dest cfg data ∧
            Happening.deleted id ∈ remover.happenings := by
          cases remover with
          | writer => exact absurd hp (ho data)
          | delete id => exact ⟨id, Eq.trans ho hp.symm, List.mem_cons_self⟩
          | sweep id now => exact ⟨id, Eq.trans ho hp.symm, List.mem_cons_self⟩
        exact since_of_append (Or.inl hdeleted) rfl hn
      · refine h.of_isSome hlog fun hthere => ?_
        rwa [get_delete_of_ne _ hp]
  | _ => exact h.of_isSome hlog id

/-- A commit of a call is a moment with the file, if the ID was not in flight. -/
theorem Commits.since {o : Op} {a : Answer} (h : Commits cfg data o a)
    (hs : serve cfg i s o a = some t) (hn : n ≤ s.log.length) : Since cfg data n t := by
  cases o with
  | enter id data' =>
      obtain ⟨rfl, rfl⟩ := h
      cases served hs with
      | joined => exact since_of_append (Or.inr ⟨i, by simp⟩) rfl hn
  | stat p =>
      obtain ⟨rfl, rfl⟩ := h
      cases served hs with
      | found hthere => exact Or.inl hthere
  | rename old new =>
      obtain ⟨hok, rfl⟩ := h
      cases served hs with
      | failed _ err stored => exact absurd rfl (hok err stored)
      | renamed => exact Or.inl (by simp [get_put_self])
  | _ => exact h.elim

variable {p p' : World} {e : Event}

/-- All threads keep to the discipline of the store and take away no chunk. -/
structure Proper (cfg : Config) (start : FS) (p : World) : Prop where
  orderly : Orderly cfg start p
  gentle : ∀ i q, p.threads i = some q → q.Only (Op.Gentle cfg)

theorem Proper.init (h : ∀ id data, Valid id → get start (path cfg.root id) = some data →
    hash cfg.sum256 data = id) (now : Time) (referenced : ChunkID → Bool) :
    Proper cfg start (.init start now referenced) :=
  ⟨.init h now referenced, nofun⟩

/-- What holds of the programs of all threads, or of one, after one of them has changed. -/
theorem forall_update {threads : ℕ → Option (Act (Call × Reply))} {P : Act (Call × Reply) → Prop}
    {i j : ℕ} {r : Option (Act (Call × Reply))} (h : ∀ q, threads j = some q → P q)
    (hr : j = i → ∀ q, r = some q → P q) : ∀ q, Function.update threads i r j = some q → P q := by
  intro q hq
  by_cases hj : j = i
  · subst hj
    rw [Function.update_self] at hq
    exact hr rfl q hq
  · rw [Function.update_of_ne hj] at hq
    exact h q hq

theorem Proper.step (h : Proper cfg start p) (hstep : Chunk.step cfg p e = some p') :
    Proper cfg start p' := by
  refine ⟨h.orderly.step hstep, fun j => ?_⟩
  cases e with
  | start call =>
      cases hstep
      refine forall_update (h.gentle j) ?_
      rintro - q ⟨⟩
      exact only_call call
  | op i answer =>
      obtain ⟨o, next, s, hthread, hs, rfl⟩ := step_op hstep
      refine forall_update (h.gentle j) ?_
      rintro - q ⟨⟩
      exact (h.gentle i _ hthread).2 answer
  | finish i =>
      obtain ⟨call, reply, -, rfl⟩ := step_finish hstep
      exact forall_update (h.gentle j) nofun
  | crash cuts =>
      cases hstep
      exact nofun
  | tick | refer =>
      cases hstep
      exact h.gentle j

theorem Since.step (h : Since cfg data n p.shared) (hp : Proper cfg start p)
    (hstep : Chunk.step cfg p e = some p') (hn : n ≤ p.shared.log.length) :
    Since cfg data n p'.shared := by
  cases e with
  | op i answer =>
      obtain ⟨o, next, s, hthread, hs, rfl⟩ := step_op hstep
      exact h.serve (hp.gentle i _ hthread).1 hs hn
  | finish i =>
      obtain ⟨call, reply, -, rfl⟩ := step_finish hstep
      exact h.of_isSome (List.prefix_append _ _) id
  | crash cuts =>
      cases hstep
      exact h.of_isSome List.prefix_rfl (isSome_get_cutFiles cuts _).trans
  | start | tick | refer =>
      cases hstep
      exact h

theorem step_log (hstep : Chunk.step cfg p e = some p') : p.shared.log <+: p'.shared.log := by
  cases e with
  | op i answer =>
      obtain ⟨o, next, s, -, hs, rfl⟩ := step_op hstep
      exact serve_log hs
  | finish i =>
      obtain ⟨call, reply, -, rfl⟩ := step_finish hstep
      exact List.prefix_append _ _
  | start | crash | tick | refer =>
      cases hstep
      exact List.prefix_rfl

/-! ### A call of `WriteChunk` -/

/-- The thread writes the data, and it will end with an error unless there was a commit. -/
structure Writes (cfg : Config) (data : List UInt8) (n i : ℕ) (p : World) : Prop where
  lt : i < p.next
  yields : ∀ q, p.threads i = some q → q.Yields (·.1 = .write data)
  since : Since cfg data n p.shared ∨ ∀ q, p.threads i = some q →
    q.Until (Commits cfg data) fun x => ∀ id, x.2 ≠ .wrote (.ok id)

theorem writes_of_start (hstep : Chunk.step cfg p (.start (.write data)) = some p') :
    Writes cfg data n p.next p' := by
  have hthread : p'.threads p.next = some ((Call.write data).prog cfg) := by
    cases hstep
    exact Function.update_self ..
  have hlt : p.next < p'.next := by
    cases hstep
    exact Nat.lt_succ_self _
  refine ⟨hlt, ?_, Or.inr ?_⟩
  · intro q hq
    obtain rfl := Option.some.inj (hthread.symm.trans hq)
    exact .of_bind _ fun _ => rfl
  · intro q hq
    obtain rfl := Option.some.inj (hthread.symm.trans hq)
    exact .bind (until_writeChunk data) fun res hres id heq => hres id (Reply.wrote.inj heq)

theorem Writes.step (h : Writes cfg data n i p) (hp : Proper cfg start p)
    (hstep : Chunk.step cfg p e = some p') (hn : n ≤ p.shared.log.length) :
    Writes cfg data n i p' := by
  have hsince : Since cfg data n p.shared → Since cfg data n p'.shared :=
    fun hsince => hsince.step hp hstep hn
  cases e with
  | start call =>
      cases hstep
      have hne : i = p.next → False := fun heq => absurd heq (Nat.ne_of_lt h.lt)
      exact ⟨h.lt.trans (Nat.lt_succ_self _), forall_update h.yields fun heq => (hne heq).elim,
        h.since.imp hsince fun huntil => forall_update huntil fun heq => (hne heq).elim⟩
  | op j answer =>
      obtain ⟨o, next, s, hthread, hs, rfl⟩ := step_op hstep
      refine ⟨h.lt, forall_update h.yields ?_, ?_⟩
      · rintro rfl q ⟨⟩
        exact h.yields _ hthread answer
      · rcases h.since with hhad | huntil
        · exact Or.inl (hsince hhad)
        · by_cases hij : i = j
          · subst hij
            rcases huntil _ hthread answer with hcommits | hnext
            · exact Or.inl (hcommits.since hs hn)
            · refine Or.inr (forall_update huntil ?_)
              rintro - q ⟨⟩
              exact hnext
          · exact Or.inr (forall_update huntil fun heq => absurd heq hij)
  | finish j =>
      obtain ⟨call, reply, -, rfl⟩ := step_finish hstep
      exact ⟨h.lt, forall_update h.yields nofun,
        h.since.imp hsince fun huntil => forall_update huntil nofun⟩
  | crash cuts =>
      cases hstep
      exact ⟨h.lt, nofun, Or.inr nofun⟩
  | tick | refer =>
      cases hstep
      exact ⟨h.lt, h.yields, h.since.imp_left hsince⟩

/-- When a thread has returned an ID, the file is there. -/
theorem Writes.ended {x : Call} {id : ChunkID} (h : Writes cfg data n i p)
    (hp : Proper cfg start p) (hret : p.threads i = some (.ret (x, .wrote (.ok id)))) :
    id = hash cfg.sum256 data ∧ Since cfg data n p.shared := by
  obtain rfl : x = .write data := h.yields _ hret
  exact ⟨(hp.orderly.ended hret data id rfl).1,
    h.since.resolve_right fun huntil => huntil _ hret id rfl⟩

/-- The file that is there holds the data, if no other known data have their hash. -/
theorem Since.stored (h : Since cfg data n s) (hs : Sound cfg start s)
    (hfree : ∀ data', Known cfg start s.log data' →
      hash cfg.sum256 data' = hash cfg.sum256 data → data' = data) :
    get s.files (dest cfg data) = some data ∨ Excused cfg data (s.log.drop n) := by
  refine h.imp_left fun hthere => ?_
  obtain ⟨content, hget⟩ := Option.isSome_iff_exists.mp hthere
  obtain ⟨hhash, -, hknown, -⟩ := hs.chunks _ content (valid_hash cfg.sum256 data) hget
  rw [hget, hfree content hknown hhash]

end Steps

end VaultFS.Chunk
