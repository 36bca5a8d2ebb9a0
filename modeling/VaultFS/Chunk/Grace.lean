import VaultFS.Chunk.Integrity

/-!
# The grace period of acknowledged chunks

A sweep deletes a chunk when its orphan timer has run for the grace period. A write that finds its
chunk in place does not touch the timer, so that the chunk can go at any time after the write was
acknowledged. It stays for the grace period if at each acknowledgement neither an older timer of the
chunk is running nor a sweep that has listed it is in progress. The invariant is that timers are not
older than the acknowledgements of their chunks (`Timely`), and a sweep can rely on it that what it
has listed is not acknowledged meanwhile (`Unacknowledged`).
-/

namespace VaultFS.Chunk

open Interaction KeyValue Metadata Transition

/-- A sweep that deletes a chunk after a write of it was acknowledged has read a time that is later
by the grace period. -/
def RespectsGrace (cfg : Config) (log : List Happening) : Prop :=
  log.Pairwise fun x y => ∀ id t now, x = .acked id t → y = .collected id now →
    t + cfg.grace ≤ now

structure Timely (cfg : Config) (s : Shared) : Prop where
  past : ∀ id a, .acked id a ∈ s.log → a ≤ s.now
  timers : ∀ id a first, .acked id a ∈ s.log → s.orphanedAt id = some first → a ≤ first
  grace : RespectsGrace cfg s.log

/-- What a sweep can rely on. -/
structure Unacknowledged (i : ℕ) (s t : Shared) : Prop where
  listed : t.listed i = s.listed i
  acked : ∀ ids, s.listed i = some ids → ∀ id ∈ ids, ∀ a, .acked id a ∈ t.log → .acked id a ∈ s.log

def graceDiscipline (cfg : Config) : Discipline ℕ Shared Op Answer where
  serve := serve cfg
  Inv := Timely cfg
  rely := Unacknowledged
  refl _ _ := ⟨rfl, fun _ _ _ _ _ h => h⟩
  trans h h' := ⟨h'.listed.trans h.listed, fun ids hids id hid a ha =>
    h.acked ids hids id hid a (h'.acked ids (h.listed.trans hids) id hid a ha)⟩

variable {cfg : Config} {i : ℕ} {s t : Shared}

section Steps

/-- A step that adds to the log, but no acknowledgements. -/
structure Adds (more : List Happening) (s t : Shared) : Prop where
  log : t.log = s.log ++ more
  acked : ∀ id a, .acked id a ∉ more

theorem Adds.nil (h : t.log = s.log) : Adds [] s t :=
  ⟨h.trans (List.append_nil _).symm, fun _ _ => List.not_mem_nil⟩

theorem Adds.acked_mem {more : List Happening} {id : ChunkID} {a : Time} (h : Adds more s t)
    (ha : .acked id a ∈ t.log) : .acked id a ∈ s.log := by
  rw [h.log] at ha
  exact (List.mem_append.mp ha).resolve_right (h.acked id a)

theorem Adds.unacknowledged {more : List Happening} (h : Adds more s t)
    (hlisted : t.listed i = s.listed i) : Unacknowledged i s t :=
  ⟨hlisted, fun _ _ _ _ _ ha => h.acked_mem ha⟩

theorem Adds.timely {more : List Happening} (h : Adds more s t) (hs : Timely cfg s)
    (hcollected : ∀ id now, .collected id now ∈ more →
      ∀ a, .acked id a ∈ s.log → a + cfg.grace ≤ now)
    (htimers : ∀ id first, t.orphanedAt id = some first →
      s.orphanedAt id = some first ∨ ∀ a, .acked id a ∈ s.log → a ≤ first)
    (hnow : s.now ≤ t.now) : Timely cfg t := by
  refine ⟨?_, ?_, ?_⟩
  · intro id a ha
    exact (hs.past id a (h.acked_mem ha)).trans hnow
  · intro id a first ha hfirst
    rcases htimers id first hfirst with hsame | hnew
    · exact hs.timers id a first (h.acked_mem ha) hsame
    · exact hnew a (h.acked_mem ha)
  · rw [h.log, RespectsGrace, List.pairwise_append]
    refine ⟨hs.grace, ?_, ?_⟩
    · refine List.pairwise_of_forall_mem_list ?_
      rintro x hx y - id a now rfl
      exact absurd hx (h.acked id a)
    · rintro x hx y hy id a now rfl rfl
      exact hcollected id now hy a hx

/-- The operation lists nothing, starts no timer and collects no chunk. -/
def Op.Plain : Op → Prop
  | .list | .observe _ _ | .remove _ (.sweep _ _) => False
  | _ => True

theorem Op.Writing.plain {o : Op} (h : o.Writing cfg) : o.Plain := by
  cases o with
  | list | observe => exact h
  | remove p remover =>
      obtain ⟨rfl, -⟩ := h
      trivial
  | _ => trivial

/-- What a plain operation does to the log, the timers and the lists of the sweeps. -/
structure Aside (s t : Shared) : Prop where
  adds : ∃ more, Adds more s t ∧ ∀ id now, .collected id now ∉ more
  listed : t.listed = s.listed
  now : t.now = s.now
  timers : ∀ id first, t.orphanedAt id = some first → s.orphanedAt id = some first

theorem Aside.of_log {more : List Happening} (hlog : t.log = s.log ++ more)
    (hacked : ∀ id a, .acked id a ∉ more) (hcollected : ∀ id now, .collected id now ∉ more)
    (hlisted : t.listed = s.listed) (hnow : t.now = s.now)
    (htimers : t.orphanedAt = s.orphanedAt) : Aside s t :=
  ⟨⟨more, ⟨hlog, hacked⟩, hcollected⟩, hlisted, hnow, fun _ _ h => htimers ▸ h⟩

theorem Aside.of_eq (hlog : t.log = s.log) (hlisted : t.listed = s.listed) (hnow : t.now = s.now)
    (htimers : ∀ id first, t.orphanedAt id = some first → s.orphanedAt id = some first) :
    Aside s t :=
  ⟨⟨[], .nil hlog, fun _ _ => List.not_mem_nil⟩, hlisted, hnow, htimers⟩

theorem serve_plain {o : Op} {a : Answer} (ho : o.Plain) (h : serve cfg i s o a = some t) :
    Aside s t := by
  cases served h with
  | listed | observed => exact ho.elim
  | joined | entered | renamed => exact .of_log rfl (by simp) (by simp) rfl rfl rfl
  | removed remover =>
      have hplain : (∀ id a, .acked id a ∉ remover.happenings) ∧
          ∀ id now, .collected id now ∉ remover.happenings := by
        cases remover with
        | sweep => exact ho.elim
        | _ => simp [Remover.happenings]
      exact .of_log rfl hplain.1 hplain.2 rfl rfl rfl
  | forgot id =>
      refine .of_eq rfl rfl rfl ?_
      intro id' first hfirst
      by_cases heq : id' = id
      · simp [heq] at hfirst
      · simpa [Function.update_of_ne heq] using hfirst
  | pruned live =>
      refine .of_eq rfl rfl rfl ?_
      intro id first hfirst
      simp only at hfirst
      split at hfirst
      · exact hfirst
      · cases hfirst
  | _ => exact .of_eq rfl rfl rfl fun _ _ hfirst => hfirst

theorem Aside.unacknowledged (h : Aside s t) (i : ℕ) : Unacknowledged i s t := by
  obtain ⟨more, hadds, -⟩ := h.adds
  exact hadds.unacknowledged (congrFun h.listed i)

theorem Aside.timely (h : Aside s t) (hs : Timely cfg s) : Timely cfg t := by
  obtain ⟨more, hadds, hcollected⟩ := h.adds
  exact hadds.timely hs (fun id now hmem => absurd hmem (hcollected id now))
    (fun id first hfirst => Or.inl (h.timers id first hfirst)) h.now.ge

end Steps

section Sweeps

/-- The sweep has listed the chunks, and with its reading of the clock it is not behind their
acknowledgements. -/
structure Sweeping (i : ℕ) (ids : List ChunkID) (now : Time) (s : Shared) : Prop where
  listed : s.listed i = some ids
  acked : ∀ id ∈ ids, ∀ a, .acked id a ∈ s.log → a ≤ now

/-- All acknowledgements of the chunk are older than the grace period. -/
def Expired (cfg : Config) (id : ChunkID) (now : Time) (s : Shared) : Prop :=
  ∀ a, .acked id a ∈ s.log → a + cfg.grace ≤ now

variable {ids : List ChunkID} {id : ChunkID} {now : Time}

theorem Sweeping.mono (h : Sweeping i ids now s) (hrely : Unacknowledged i s t) :
    Sweeping i ids now t :=
  ⟨hrely.listed.trans h.listed, fun id hid a ha =>
    h.acked id hid a (hrely.acked ids h.listed id hid a ha)⟩

theorem Expired.mono (h : Expired cfg id now s) (hs : Sweeping i ids now s) (hid : id ∈ ids)
    (hrely : Unacknowledged i s t) : Expired cfg id now t :=
  fun a ha => h a (hrely.acked ids hs.listed id hid a ha)

theorem safe_plain {o : Op} {P : Shared → Prop} (ho : o.Plain)
    (hP : ∀ t, Unacknowledged i s t → P t) :
    Safe (graceDiscipline cfg) i (fun _ t => P t) s (.op o) := by
  apply Safe.op
  intro t ht hst a u hu
  have haside := serve_plain ho hu
  exact ⟨⟨haside.timely ht, fun j _ => haside.unacknowledged j⟩, fun v _ huv =>
    hP v ((graceDiscipline cfg).trans hst
      ((graceDiscipline cfg).trans (haside.unacknowledged i) huv))⟩

theorem safe_of_plain {α : Type} {p : Act α} (h : p.Only Op.Plain) :
    Safe (graceDiscipline cfg) i (fun _ _ => True) s p :=
  .of_only h fun _ _ _ _ ho hs hserve => ⟨(serve_plain ho hserve).timely hs,
    fun j _ => (serve_plain ho hserve).unacknowledged j⟩

theorem add_grace_le {first : Time} (hgrace : minDuration < cfg.grace)
    (h : cfg.grace ≤ now.sub first) : first + cfg.grace ≤ now := by
  rw [Time.sub, le_max_iff, le_min_iff] at h
  exact Int.add_le_of_le_sub_left (h.resolve_left (not_le.mpr hgrace)).2

theorem safe_observe (hgrace : minDuration < cfg.grace) (hid : id ∈ ids)
    (hs : Sweeping i ids now s) :
    Safe (graceDiscipline cfg) i (fun a t => Sweeping i ids now t ∧
      (a = .flag true → Expired cfg id now t)) s (.op (.observe id now)) := by
  apply Safe.op
  intro t ht hst a u hu
  have hsweep := hs.mono hst
  cases served hu with
  | failed ho => exact ho.elim
  | observed =>
      -- a timer that runs is not older than the acknowledgements, and a new one starts now
      have hfirst : ∀ a, .acked id a ∈ t.log → a ≤ (t.orphanedAt id).getD now := by
        intro a ha
        cases hrunning : t.orphanedAt id with
        | none => exact hsweep.acked id hid a ha
        | some first => exact ht.timers id a first ha hrunning
      have hadds : Adds [] t { t with
          orphanedAt := Function.update t.orphanedAt id (some ((t.orphanedAt id).getD now)) } :=
        .nil rfl
      refine ⟨⟨hadds.timely ht (by simp) ?_ le_rfl, fun j _ => hadds.unacknowledged rfl⟩, ?_⟩
      · intro id' first hrunning
        by_cases heq : id' = id
        · simp only [heq, Function.update_self, Option.some.injEq] at hrunning
          exact Or.inr (heq ▸ hrunning ▸ hfirst)
        · simp only [Function.update_of_ne heq] at hrunning
          exact Or.inl hrunning
      · intro v _ huv
        have htv := (graceDiscipline cfg).trans (hadds.unacknowledged (i := i) rfl) huv
        refine ⟨hsweep.mono htv, fun htrue => Expired.mono ?_ hsweep hid htv⟩
        intro a ha
        have hlate := add_grace_le hgrace (of_decide_eq_true (Answer.flag.inj htrue))
        exact (add_le_add_left (hfirst a ha) _).trans hlate

theorem safe_collect {p : Path} (hid : id ∈ ids) (hs : Sweeping i ids now s)
    (hexpired : Expired cfg id now s) :
    Safe (graceDiscipline cfg) i (fun _ t => Sweeping i ids now t) s
      (.op (.remove p (.sweep id now))) := by
  apply Safe.op
  intro t ht hst a u hu
  have hsweep := hs.mono hst
  have hsame : (graceDiscipline cfg).Keeps i t t ∧ ∀ v, Timely cfg v →
      Unacknowledged i t v → Sweeping i ids now v :=
    ⟨⟨ht, fun j _ => (graceDiscipline cfg).refl j t⟩, fun v _ htv => hsweep.mono htv⟩
  cases served hu with
  | removed =>
      have hadds : Adds [.deleted id, .collected id now] t { t with
          files := delete t.files p, log := t.log ++ (Remover.sweep id now).happenings } :=
        ⟨rfl, by simp⟩
      refine ⟨⟨hadds.timely ht ?_ (fun _ _ h => Or.inl h) le_rfl,
        fun j _ => hadds.unacknowledged rfl⟩, ?_⟩
      · intro id' now' hmem
        obtain ⟨rfl, rfl⟩ : id' = id ∧ now' = now := by simpa using hmem
        exact hexpired.mono hs hid hst
      · intro v _ huv
        exact hsweep.mono ((graceDiscipline cfg).trans (hadds.unacknowledged rfl) huv)
  | removedDir | nothingToRemove | failed => exact hsame

theorem safe_deleteChunk (hs : Timely cfg s) (hid : id ∈ ids) (hsweep : Sweeping i ids now s)
    (hexpired : Expired cfg id now s) :
    Safe (graceDiscipline cfg) i (fun _ t => Sweeping i ids now t) s
      (deleteChunk cfg id (.sweep id now)) := by
  rw [deleteChunk]
  have hctx : Safe (graceDiscipline cfg) i
      (fun _ t => Sweeping i ids now t ∧ Expired cfg id now t) s (.op .ctxErr) :=
    safe_plain trivial fun t hst => ⟨hsweep.mono hst, hexpired.mono hsweep hid hst⟩
  refine .bind hs hctx ?_
  rintro a t ht ⟨hsweep, hexpired⟩
  split
  · exact .ret fun u _ htu => hsweep.mono htu
  · split
    · refine .bind ht (safe_plain trivial fun _ hst => hsweep.mono hst) ?_
      intro _ t _ hsweep
      exact .ret fun u _ htu => hsweep.mono htu
    · refine .bind ht (safe_collect hid hsweep hexpired) ?_
      intro a t _ hsweep
      split <;> exact .ret fun u _ htu => hsweep.mono htu

theorem safe_sweepFrom (hgrace : minDuration < cfg.grace) (hs : Timely cfg s)
    (hsweep : Sweeping i ids now s) (live : List ChunkID) {rest : List ChunkID}
    (hrest : rest ⊆ ids) :
    Safe (graceDiscipline cfg) i (fun _ _ => True) s (sweepFrom cfg now live rest) := by
  induction rest generalizing s live with
  | nil => exact safe_of_plain (.bind (.op trivial) fun _ => trivial)
  | cons id rest ih =>
      have hid : id ∈ ids := hrest List.mem_cons_self
      have hgo : ∀ {s}, Timely cfg s → Sweeping i ids now s →
          Safe (graceDiscipline cfg) i (fun _ _ => True) s
            (sweepFrom cfg now (live ++ [id]) rest) :=
        fun hs hsweep => ih hs hsweep _ fun _ h => hrest (List.mem_cons_of_mem _ h)
      have hforget : ∀ {s}, Timely cfg s → Sweeping i ids now s →
          Safe (graceDiscipline cfg) i (fun _ _ => True) s
            (do let _ ← Prog.op (.forget id)
                sweepFrom cfg now (live ++ [id]) rest) :=
        fun hs hsweep => .bind hs (safe_plain trivial fun _ hst => hsweep.mono hst)
          fun _ _ ht hsweep => hgo ht hsweep
      rw [sweepFrom]
      refine .bind hs (safe_plain trivial fun _ hst => hsweep.mono hst) ?_
      intro a t ht hsweep
      split
      · exact .ret fun _ _ _ => trivial
      · refine .bind ht (safe_plain trivial fun _ hst => hsweep.mono hst) ?_
        intro a t ht hsweep
        split
        · exact hforget ht hsweep
        · refine .bind ht (safe_observe hgrace hid hsweep) ?_
          rintro a t ht ⟨hsweep, hexpired⟩
          split
          · refine .bind ht (safe_deleteChunk ht hid hsweep (hexpired rfl)) ?_
            intro err t ht hsweep
            split
            · exact hgo ht hsweep
            · exact hforget ht hsweep
          · exact hgo ht hsweep

theorem safe_list :
    Safe (graceDiscipline cfg) i (fun a t => ∀ ids, a = .ids ids → t.listed i = some ids) s
      (.op .list) := by
  apply Safe.op
  intro t ht _ a u hu
  have hkeeps : ∀ listed, (∀ j, j ≠ i → listed j = t.listed j) →
      (graceDiscipline cfg).Keeps i t { t with listed } := by
    intro listed hlisted
    have hadds : Adds [] t { t with listed } := .nil rfl
    exact ⟨hadds.timely ht (by simp) (fun _ _ h => Or.inl h) le_rfl,
      fun j hj => hadds.unacknowledged (hlisted j hj)⟩
  cases served hu with
  | listed =>
      refine ⟨hkeeps _ fun j hj => Function.update_of_ne hj _ _, fun v _ huv ids' heq => ?_⟩
      rw [Unacknowledged.listed huv, ← Answer.ids.inj heq]
      exact Function.update_self _ _ _
  | failed => exact ⟨hkeeps _ fun _ _ => rfl, fun _ _ _ _ heq => by cases heq⟩

theorem safe_now (hlisted : s.listed i = some ids) :
    Safe (graceDiscipline cfg) i (fun a t => ∀ now, a = .time now → Sweeping i ids now t) s
      (.op .now) := by
  apply Safe.op
  intro t ht hst a u hu
  cases served hu with
  | failed ho => exact ho.elim
  | now =>
      refine ⟨⟨ht, fun j _ => (graceDiscipline cfg).refl j _⟩, ?_⟩
      rintro v _ htv _ heq
      cases heq
      refine Sweeping.mono ⟨hst.listed.trans hlisted, fun id _ a ha => ?_⟩ htv
      exact ht.past id a ha

theorem safe_sweep (hgrace : minDuration < cfg.grace) (hs : Timely cfg s) :
    Safe (graceDiscipline cfg) i (fun _ _ => True) s (sweep cfg) := by
  have hret : ∀ {s : Shared} {err : Option String},
      Safe (graceDiscipline cfg) i (fun _ _ => True) s (pure err) :=
    .ret fun _ _ _ => trivial
  rw [sweep]
  refine .bind hs safe_list ?_
  intro a t ht hlisted
  split
  · rename_i ids
    refine .bind ht (safe_now (hlisted ids rfl)) ?_
    intro a t ht hsweep
    split
    · exact safe_sweepFrom hgrace ht (hsweep _ rfl) [] (List.Subset.refl ids)
    · exact hret
  · exact hret
  · exact hret

end Sweeps

section Runs

theorem safe_timely_call (hgrace : minDuration < cfg.grace) (hs : Timely cfg s) (call : Call) :
    Safe (graceDiscipline cfg) i (fun _ _ => True) s (call.prog cfg) := by
  have hret : ∀ {s : Shared} {x : Call × Reply},
      Safe (graceDiscipline cfg) i (fun _ _ => True) s (pure x) :=
    .ret fun _ _ _ => trivial
  cases call with
  | write data =>
      exact .bind hs (safe_of_plain ((only_writeChunk data).imp fun _ ho => ho.plain))
        fun _ _ _ _ => hret
  | replicate req =>
      exact .bind hs (safe_of_plain ((only_replicateChunk req).imp fun _ ho => ho.plain))
        fun _ _ _ _ => hret
  | delete id =>
      exact .bind hs (safe_of_plain (only_deleteChunk trivial trivial trivial))
        fun _ _ _ _ => hret
  | sweep => exact .bind hs (safe_sweep hgrace hs) fun _ _ _ _ => hret

/-- A thread that acknowledges a write returns only when no older timer of the chunk is running and
no sweep in progress has listed it. -/
def Undisturbed (w : World) : Event → Prop
  | .finish i => ∀ call reply id, w.threads i = some (.ret (call, reply)) → reply.acked = some id →
      (∀ first, w.shared.orphanedAt id = some first → w.shared.now ≤ first) ∧
      ∀ j ids, w.shared.listed j = some ids → id ∉ ids
  | _ => True

def AllTimely (cfg : Config) (w : World) : Prop :=
  AllSafe (graceDiscipline cfg) (fun _ _ _ => True) w.shared w.threads

theorem mem_log_finish {reply : Reply} {id : ChunkID} {a : Time}
    (h : .acked id a ∈ (s.finish i reply).log) :
    .acked id a ∈ s.log ∨ reply.acked = some id ∧ a = s.now := by
  rcases List.mem_append.mp h with hold | hnew
  · exact Or.inl hold
  · obtain ⟨id', hid', heq⟩ := List.mem_map.mp hnew
    cases heq
    exact Or.inr ⟨Option.mem_toList.mp hid', rfl⟩

theorem Timely.finish {reply : Reply} (h : Timely cfg s) (i : ℕ)
    (htimer : ∀ id, reply.acked = some id → ∀ first, s.orphanedAt id = some first → s.now ≤ first) :
    Timely cfg (s.finish i reply) := by
  refine ⟨?_, ?_, ?_⟩
  · intro id a ha
    rcases mem_log_finish ha with hold | ⟨-, rfl⟩
    · exact h.past id a hold
    · exact le_rfl
  · intro id a first ha hfirst
    rcases mem_log_finish ha with hold | ⟨hacked, rfl⟩
    · exact h.timers id a first hold hfirst
    · exact htimer id hacked first hfirst
  · have hnew : ∀ y ∈ reply.acked.toList.map fun id => Happening.acked id s.now,
        ∀ id now, y ≠ .collected id now := by
      rintro y hy id now rfl
      obtain ⟨id', -, heq⟩ := List.mem_map.mp hy
      cases heq
    refine List.pairwise_append.mpr ⟨h.grace, List.pairwise_of_forall_mem_list ?_, ?_⟩
    · exact fun x _ y hy id a now _ heq => absurd heq (hnew y hy id now)
    · exact fun x _ y hy id a now _ heq => absurd heq (hnew y hy id now)

theorem AllTimely.step {w w' : World} {e : Event} (hgrace : minDuration < cfg.grace)
    (h : AllTimely cfg w) (hok : Undisturbed w e) (hstep : step cfg w e = some w') :
    AllTimely cfg w' := by
  cases e with
  | start call =>
      cases hstep
      exact h.start (safe_timely_call hgrace h.1 call)
  | op i answer =>
      obtain ⟨o, next, s, hthread, hs, rfl⟩ := step_op hstep
      exact h.op hthread hs
  | finish i =>
      obtain ⟨call, reply, hthread, rfl⟩ := step_finish hstep
      have hquiet := fun id => hok call reply id hthread
      refine (AllSafe.finish h i).env (h.1.finish i fun id hid => (hquiet id hid).1) ?_
      intro j p hj
      have hne : j ≠ i := by
        rintro rfl
        rw [Function.update_self] at hj
        cases hj
      refine ⟨Function.update_of_ne hne _ _, ?_⟩
      intro ids hids id hid a ha
      rcases mem_log_finish ha with hold | ⟨hacked, -⟩
      · exact hold
      · exact absurd hid ((hquiet id hacked).2 j ids hids)
  | crash cuts =>
      cases hstep
      have hadds : Adds [] w.shared (w.shared.restart cuts) := .nil rfl
      refine ⟨hadds.timely h.1 (by simp) (fun _ _ hfirst => by cases hfirst) le_rfl, ?_⟩
      intro i p hp
      cases hp
  | tick d =>
      cases hstep
      have hadds : Adds [] w.shared { w.shared with now := w.shared.now + d } := .nil rfl
      exact h.env (hadds.timely h.1 (by simp) (fun _ _ hfirst => Or.inl hfirst)
        (Int.le_add_of_nonneg_right (Int.natCast_nonneg d))) fun i _ _ => hadds.unacknowledged rfl
  | refer id b =>
      cases hstep
      have hadds : Adds [] w.shared { w.shared with
          referenced := Function.update w.shared.referenced id b } := .nil rfl
      exact h.env (hadds.timely h.1 (by simp) (fun _ _ hfirst => Or.inl hfirst) le_rfl)
        fun i _ _ => hadds.unacknowledged rfl

/-- When every acknowledgement comes without an older timer of its chunk and without a sweep that
has listed it, no sweep deletes the chunk in the grace period after it. This is about deletions
after the return: one between the `Stat` of `WriteChunk` and its return is not covered. -/
theorem grace_respected {start : FS} {now : Time} {referenced : ChunkID → Bool} {w : World}
    (hgrace : minDuration < cfg.grace)
    (h : Transition.Path (step cfg) Undisturbed (.init start now referenced) w) :
    RespectsGrace cfg w.shared.log := by
  have hinit : AllTimely cfg (.init start now referenced) := by
    refine ⟨⟨by simp [World.init], by simp [World.init], List.Pairwise.nil⟩, ?_⟩
    intro i p hp
    cases hp
  exact (h.invariant hinit fun _ _ _ hw hok hs => hw.step hgrace hok hs).1.grace

/-- A store with one chunk. -/
def stocked : FS := put Store.empty (path sample.root (hash sample.sum256 [1])) [1]

/-- All operations of a `WriteChunk` that finds its chunk in place. -/
def finding (i : ℕ) : List Event := [.op i .done, .op i (.flag false), .op i .done, .op i .done]

/-- The operations of a sweep up to the test of the timer of the one chunk there is. -/
def observing (i : ℕ) (now : Time) (expired : Bool) : List Event :=
  [.op i (.ids [hash sample.sum256 [1]]), .op i (.time now), .op i .done, .op i (.flag false),
    .op i (.flag expired)]

def Event.returns : Event → Bool
  | .finish _ => true
  | _ => false

theorem undisturbed_of_not_returns {w : World} {e : Event} (h : e.returns = false) :
    Undisturbed w e := by
  cases e <;> trivial

theorem path_of_not_returns {w w' : World}
    (h : Transition.Path (step cfg) (fun _ e => e.returns = false) w w') :
    Transition.Path (step cfg) Undisturbed w w' :=
  (h.strengthen trivial fun _ _ _ (_ : True) he _ => ⟨undisturbed_of_not_returns he, trivial⟩).1

/-- The state in which a first call is about to acknowledge the chunk. -/
def acknowledging : World :=
  final (guarded (step sample) fun _ e => e.returns = false) (.init stocked 0 fun _ => false)
    (.start (.write [1]) :: finding 0)

/-- A sweep sees the chunk at once, and another one deletes it when the grace period is over. -/
def collecting : List Event :=
  .start .sweep :: observing 1 0 false ++ [.op 1 .done, .tick 10] ++
    .start .sweep :: observing 2 10 true ++ [.op 2 .done, .op 2 .done]

set_option maxRecDepth 4000 in
theorem grace_respected_present : ∃ w, Transition.Path (step sample) Undisturbed
      (.init stocked 0 fun _ => false) w ∧
    .acked (hash sample.sum256 [1]) 0 ∈ w.shared.log ∧
    .collected (hash sample.sum256 [1]) 10 ∈ w.shared.log ∧ RespectsGrace sample w.shared.log := by
  have hbefore : Enabled (guarded (step sample) fun _ e => e.returns = false)
      (.init stocked 0 fun _ => false) (.start (.write [1]) :: finding 0) := by decide +kernel
  have hthread : acknowledging.threads 0 =
      some (.ret (.write [1], .wrote (.ok (hash sample.sum256 [1])))) :=
    threads_eq_ret (by decide +kernel)
  have hok : Undisturbed acknowledging (.finish 0) := by
    intro call reply id _ _
    refine ⟨?_, ?_⟩
    · intro first hfirst
      cases hfirst
    · intro j ids hids
      cases hids
  have hfinish : step sample acknowledging (.finish 0) = some { acknowledging with
      shared := acknowledging.shared.finish 0 (.wrote (.ok (hash sample.sum256 [1])))
      threads := Function.update acknowledging.threads 0 none } := by
    simp only [step, hthread]
  have hafter : Enabled (guarded (step sample) fun _ e => e.returns = false) { acknowledging with
      shared := acknowledging.shared.finish 0 (.wrote (.ok (hash sample.sum256 [1])))
      threads := Function.update acknowledging.threads 0 none } collecting := by decide +kernel
  have hpath := ((path_of_not_returns (.final hbefore)).tail hok hfinish).trans
    (path_of_not_returns (.final hafter))
  exact ⟨_, hpath, by decide +kernel, by decide +kernel, grace_respected (by decide) hpath⟩

/-- The chunk is found in place at time 9, when its timer has run for 9 already. -/
def foundLate : List Event :=
  .start .sweep :: observing 0 0 false ++ [.op 0 .done, .finish 0, .tick 9] ++
    .start (.write [1]) :: finding 1 ++ [.finish 1, .tick 1] ++
    .start .sweep :: observing 2 10 true ++ [.op 2 .done, .op 2 .done]

/-- The write is acknowledged at time 9, and at time 10 the chunk is deleted. -/
theorem grace_not_respected : ∃ w, Transition.Path (step sample) (fun _ _ => True)
      (.init stocked 0 fun _ => false) w ∧
    w.shared.log = [.called 1 [1], .acked (hash sample.sum256 [1]) 9,
      .deleted (hash sample.sum256 [1]), .collected (hash sample.sum256 [1]) 10] ∧
    get w.shared.files (path sample.root (hash sample.sum256 [1])) = none ∧
    ¬ RespectsGrace sample w.shared.log := by
  have henabled : Enabled (guarded (step sample) fun _ _ => True)
      (.init stocked 0 fun _ => false) foundLate := by decide +kernel
  have hlog : (final (guarded (step sample) fun _ _ => True)
      (.init stocked 0 fun _ => false) foundLate).shared.log =
        [.called 1 [1], .acked (hash sample.sum256 [1]) 9, .deleted (hash sample.sum256 [1]),
          .collected (hash sample.sum256 [1]) 10] := by decide +kernel
  refine ⟨_, .final henabled, hlog, by decide +kernel, ?_⟩
  rw [hlog, RespectsGrace]
  simp [sample]

end Runs

end VaultFS.Chunk
