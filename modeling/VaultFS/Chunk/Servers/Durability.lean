import VaultFS.Chunk.Presence
import VaultFS.Chunk.Servers.Basic

/-!
# Acknowledged chunks on a chain of servers

What a call of `WriteChunk` that has returned an ID says of the stores along its chain, whatever
other calls, deletions, collections and deaths of processes there were in between.

A handler that goes on after the call of the store leaves the chunk on its server until it is
deleted there (`Since`), unless the ID was in flight. It waits for the handler on the next server,
which has done the same for the rest of the chain. All this is counted from a moment before the call
was sent, which is given by the number of calls and the lengths of the logs at that moment; the
induction is over the run from there.
-/

namespace VaultFS.Chunk.Servers

open Interaction KeyValue Metadata

/-- How a call can go on. -/
structure Call.Continues (call call' : Call) : Prop where
  addr : call'.addr = call.addr
  chunkId : call'.chunkId = call.chunkId
  data : call'.data = call.data
  downstream : call'.downstream = call.downstream
  returned : ∀ res, call.stage = .returned res → call'.stage = .returned res

theorem Call.Continues.refl (call : Call) : call.Continues call :=
  ⟨rfl, rfl, rfl, rfl, fun _ h => h⟩

theorem Call.Continues.trans {call call' call'' : Call} (h : call.Continues call')
    (h' : call'.Continues call'') : call.Continues call'' where
  addr := h'.addr.trans h.addr
  chunkId := h'.chunkId.trans h.chunkId
  data := h'.data.trans h.data
  downstream := h'.downstream.trans h.downstream
  returned res hres := h'.returned res (h.returned res hres)

theorem Call.die_cases (addr : String) (call : Call) : call.die addr = call ∨
    (∀ res, call.stage ≠ .returned res) ∧ call.die addr = { call with stage := .died } := by
  unfold Call.die
  split
  · exact Or.inl rfl
  · exact Or.inl rfl
  · rename_i hreturned
    split
    · exact Or.inr ⟨hreturned, rfl⟩
    · exact Or.inl rfl

section Invariant

variable (fl : Fleet) (start : String → FS) (k : ℕ) (n : String → ℕ)

/-- The file of the data is on the server, or the log from the moment of counting tells why not. -/
def Has (w : World) (addr : String) (data : List UInt8) : Prop :=
  Since (fl.server addr) data (n addr) (w.processes addr).shared

/-- What can be said of a call by where it stands. -/
def Attended (w : World) (call : Call) : Prop :=
  match call.stage with
  | .sent => True
  | .storing => hash fl.sum256 call.data = call.chunkId ∧ ∃ i, call.thread = some i ∧
      Writes (fl.server call.addr) call.data (n call.addr) i (w.processes call.addr)
  | .stored id => hash fl.sum256 call.data = call.chunkId ∧ id = call.chunkId ∧
      fl.dialer call.addr = true ∧ Has fl n w call.addr call.data
  | .forwarded id c => hash fl.sum256 call.data = call.chunkId ∧ id = call.chunkId ∧
      fl.dialer call.addr = true ∧ Has fl n w call.addr call.data ∧
      k ≤ c ∧ ∃ call', w.calls[c]? = some call' ∧ call'.data = call.data ∧
        call.downstream = call'.addr :: call'.downstream
  | .returned (.ok id) => hash fl.sum256 call.data = call.chunkId ∧ id = call.chunkId ∧
      ∀ addr ∈ fl.reached call.addr call.downstream, Has fl n w addr call.data
  | .returned (.error _) | .died => True

/-- The processes are as they should be. -/
def Running (w : World) : Prop :=
  ∀ addr, Proper (fl.server addr) (start addr) (w.processes addr)

/-- What can be said of all calls from the `k`-th on. -/
structure Inv (w : World) : Prop where
  running : Running fl start w
  log : ∀ addr, n addr ≤ (w.processes addr).shared.log.length
  count : k ≤ w.calls.length
  attended : ∀ c call, k ≤ c → w.calls[c]? = some call → Attended fl k n w call

/-- A process takes a step or none. -/
def Moves (cfg : Config) (p p' : Chunk.World) : Prop :=
  p' = p ∨ ∃ e, Chunk.step cfg p e = some p'

/-- What is left as it was in a step. -/
structure Onward (w w' : World) : Prop where
  calls : ∀ (c : ℕ) (call : Call), w.calls[c]? = some call →
    ∃ call', w'.calls[c]? = some call' ∧ call.Continues call'
  processes : ∀ addr, Moves (fl.server addr) (w.processes addr) (w'.processes addr)

end Invariant

variable {fl : Fleet} {start : String → FS} {k : ℕ} {n : String → ℕ} {w w' : World}

/-! ### One step -/

theorem getElem?_setCall {c c' : ℕ} {call x : Call} (h : (w.setCall c call).calls[c']? = some x) :
    c' = c ∧ x = call ∨ w.calls[c']? = some x := by
  rw [World.setCall, List.getElem?_set] at h
  split at h
  · rename_i hc
    split at h
    · exact Or.inl ⟨hc.symm, (Option.some.inj h).symm⟩
    · cases h
  · exact Or.inr h

theorem getElem?_send {c : ℕ} {call x : Call} (h : (w.send call).calls[c]? = some x) :
    x = call ∨ w.calls[c]? = some x := by
  rw [World.send, List.getElem?_append] at h
  split at h
  · exact Or.inr h
  · exact Or.inl (List.mem_singleton.mp (List.mem_of_getElem? h))

theorem getElem?_send_of_some {c : ℕ} {x : Call} (call : Call) (h : w.calls[c]? = some x) :
    (w.send call).calls[c]? = some x := by
  rw [World.send, List.getElem?_append_left (List.getElem?_eq_some_iff.mp h).1]
  exact h

/-- One call goes on, the others stay. -/
theorem continues_setCall {c : ℕ} {call call' : Call} (hc : w.calls[c]? = some call)
    (hcont : call.Continues call') (c' : ℕ) (x : Call) (hx : w.calls[c']? = some x) :
    ∃ x', (w.setCall c call').calls[c']? = some x' ∧ x.Continues x' := by
  rw [World.setCall, List.getElem?_set]
  by_cases hc' : c = c'
  · subst hc'
    obtain rfl : call = x := Option.some.inj (hc.symm.trans hx)
    have hlt : c < w.calls.length := (List.getElem?_eq_some_iff.mp hx).1
    exact ⟨call', by simp [hlt], hcont⟩
  · exact ⟨x, by rw [if_neg hc', hx], .refl x⟩

theorem moves_setProcess {addr : String} {p : Chunk.World} {e : Chunk.Event}
    (h : Chunk.step (fl.server addr) (w.processes addr) e = some p) (addr' : String) :
    Moves (fl.server addr') (w.processes addr') ((w.setProcess addr p).processes addr') := by
  by_cases heq : addr' = addr
  · subst heq
    exact Or.inr ⟨e, by rw [World.setProcess_self, h]⟩
  · exact Or.inl (w.setProcess_of_ne p heq)

theorem Stepped.onward (hs : Stepped fl w w') : Onward fl w w' := by
  have hstay : ∀ addr, Moves (fl.server addr) (w.processes addr) (w.processes addr) :=
    fun addr => Or.inl rfl
  cases hs with
  | sent call => exact ⟨fun c x hx => ⟨x, getElem?_send_of_some call hx, .refl x⟩, hstay⟩
  | failed hc hstage status =>
      refine ⟨continues_setCall hc ⟨rfl, rfl, rfl, rfl, ?_⟩, hstay⟩
      exact fun res hres => absurd hres (hstage res)
  | started hc hstage _ hp =>
      exact ⟨continues_setCall hc ⟨rfl, rfl, rfl, rfl, by simp [hstage]⟩, moves_setProcess hp⟩
  | resumed hc hstage _ _ hp =>
      exact ⟨continues_setCall hc ⟨rfl, rfl, rfl, rfl, by simp [hstage]⟩, moves_setProcess hp⟩
  | @forwarded c call id next downstream hc hstage _ =>
      refine ⟨fun c' x hx => ?_, hstay⟩
      have hcont : call.Continues { call with stage := .forwarded id w.calls.length } :=
        ⟨rfl, rfl, rfl, rfl, by simp [hstage]⟩
      obtain ⟨x', hx', hcont⟩ := continues_setCall hc hcont c' x hx
      exact ⟨x', getElem?_send_of_some _ hx', hcont⟩
  | replied hc hstage _ _ =>
      exact ⟨continues_setCall hc ⟨rfl, rfl, rfl, rfl, by simp [hstage]⟩, hstay⟩
  | process hp => exact ⟨fun c x hx => ⟨x, hx, .refl x⟩, moves_setProcess hp⟩
  | @crashed addr cuts p hp =>
      refine ⟨fun c x hx => ⟨x.die addr, ?_, ?_⟩, moves_setProcess hp⟩
      · simp [hx]
      · rcases x.die_cases addr with heq | ⟨hreturned, heq⟩
        · rw [heq]
          exact .refl x
        · rw [heq]
          exact ⟨rfl, rfl, rfl, rfl, fun res hres => absurd hres (hreturned res)⟩

theorem Stepped.length_le (hs : Stepped fl w w') : w.calls.length ≤ w'.calls.length := by
  cases hs <;> simp [World.send, World.setCall, World.setProcess]

theorem Moves.log {cfg : Config} {p p' : Chunk.World} (h : Moves cfg p p') :
    p.shared.log <+: p'.shared.log := by
  rcases h with rfl | ⟨e, he⟩
  · exact List.prefix_rfl
  · exact step_log he

theorem Running.step (h : Running fl start w) (hs : Stepped fl w w') : Running fl start w' := by
  intro addr
  rcases hs.onward.processes addr with heq | ⟨e, he⟩
  · rw [heq]
    exact h addr
  · exact (h addr).step he

/-! ### What is said of the calls -/

section Mono

variable (honward : Onward fl w w') (hrunning : Running fl start w)
  (hlog : ∀ addr, n addr ≤ (w.processes addr).shared.log.length)
include honward hrunning hlog

theorem Has.mono {addr : String} {data : List UInt8} (h : Has fl n w addr data) :
    Has fl n w' addr data := by
  rcases honward.processes addr with heq | ⟨e, he⟩
  · rwa [Has, heq]
  · exact Since.step h (hrunning addr) he (hlog addr)

theorem Attended.mono {call : Call} (h : Attended fl k n w call) : Attended fl k n w' call := by
  unfold Attended at h ⊢
  split at h
  · trivial
  · obtain ⟨hid, i, hi, hwrites⟩ := h
    refine ⟨hid, i, hi, ?_⟩
    rcases honward.processes call.addr with heq | ⟨e, he⟩
    · rwa [heq]
    · exact hwrites.step (hrunning _) he (hlog _)
  · obtain ⟨hhash, hid, hdial, hhas⟩ := h
    exact ⟨hhash, hid, hdial, hhas.mono honward hrunning hlog⟩
  · obtain ⟨hhash, hid, hdial, hhas, hk, call', hc', hdata, hchain⟩ := h
    obtain ⟨call'', hc'', hcont⟩ := honward.calls _ _ hc'
    refine ⟨hhash, hid, hdial, hhas.mono honward hrunning hlog, hk, call'', hc'',
      hcont.data.trans hdata, ?_⟩
    rw [hcont.addr, hcont.downstream, hchain]
  · obtain ⟨hhash, hid, hhas⟩ := h
    exact ⟨hhash, hid, fun addr haddr => (hhas addr haddr).mono honward hrunning hlog⟩
  · trivial
  · trivial

end Mono

theorem Fleet.reached_of_not_forwards {call : Call} (h : fl.forwards call ≠ true) :
    fl.reached call.addr call.downstream = [call.addr] := by
  unfold Fleet.forwards at h
  cases hds : call.downstream with
  | nil => rfl
  | cons next downstream =>
      rw [hds] at h
      have hdial : fl.dialer call.addr = false := by simpa using h
      simp [Fleet.reached, hdial]

theorem attended_afterStore {call : Call} {id : ChunkID}
    (hhash : hash fl.sum256 call.data = call.chunkId) (hid : id = call.chunkId)
    (hhas : Has fl n w call.addr call.data) :
    Attended fl k n w { call with stage := fl.afterStore call (.ok id) } := by
  by_cases hforwards : fl.forwards call
  · rw [Fleet.afterStore, if_pos hforwards]
    exact ⟨hhash, hid, (Bool.and_eq_true_iff.mp hforwards).2, hhas⟩
  · rw [Fleet.afterStore, if_neg hforwards]
    refine ⟨hhash, hid, ?_⟩
    rw [Fleet.reached_of_not_forwards hforwards]
    exact fun addr haddr => List.mem_singleton.mp haddr ▸ hhas

/-- The rest of the chain has the data when the next server says so. -/
theorem attended_replied {call call' : Call} {id id' : ChunkID} {c : ℕ}
    (hcall : Attended fl k n w call) (hstage : call.stage = .forwarded id c)
    (hc : w.calls[c]? = some call') (hcall' : k ≤ c → Attended fl k n w call')
    (hret : call'.stage = .returned (.ok id')) :
    Attended fl k n w { call with stage := .returned (.ok id) } := by
  rw [Attended, hstage] at hcall
  obtain ⟨hhash, hid, hdial, hhas, hk, call'', hc'', hdata, hchain⟩ := hcall
  obtain rfl : call' = call'' := Option.some.inj (hc.symm.trans hc'')
  have hrest := hcall' hk
  rw [Attended, hret] at hrest
  refine ⟨hhash, hid, ?_⟩
  simp only [hchain, Fleet.reached, hdial, if_true, List.mem_cons, forall_eq_or_imp]
  exact ⟨hhas, fun addr haddr => hdata ▸ hrest.2.2 addr haddr⟩

/-- When the thread of a handler has ended with an ID, its server has the data. -/
theorem Inv.has_of_resumed (h : Inv fl start k n w) {c i : ℕ} {call : Call} {x : Chunk.Call}
    {id : ChunkID} (hk : k ≤ c) (hc : w.calls[c]? = some call) (hstage : call.stage = .storing)
    (hthread : call.thread = some i)
    (hret : (w.processes call.addr).threads i = some (.ret (x, .wrote (.ok id)))) :
    hash fl.sum256 call.data = call.chunkId ∧ id = call.chunkId ∧
      Has fl n w call.addr call.data := by
  have hcall := h.attended c call hk hc
  rw [Attended, hstage] at hcall
  obtain ⟨hhash, j, hj, hwrites⟩ := hcall
  obtain rfl : i = j := Option.some.inj (hthread.symm.trans hj)
  obtain ⟨hid, hsince⟩ := hwrites.ended (h.running call.addr) hret
  exact ⟨hhash, hid.trans hhash, hsince⟩

theorem Inv.step (h : Inv fl start k n w) (hs : Stepped fl w w') : Inv fl start k n w' := by
  have honward := hs.onward
  have hold : ∀ {x}, Attended fl k n w x → Attended fl k n w' x :=
    fun hx => hx.mono honward h.running h.log
  refine ⟨h.running.step hs, ?_, h.count.trans hs.length_le, ?_⟩
  · exact fun addr => (h.log addr).trans (honward.processes addr).log.length_le
  intro c' x hk hx
  have hsame : w.calls[c']? = some x → Attended fl k n w' x :=
    fun hx => hold (h.attended c' x hk hx)
  cases hs with
  | sent call hstage =>
      rcases getElem?_send hx with rfl | hx
      · rw [Attended, hstage]
        trivial
      · exact hsame hx
  | failed hc hstage status =>
      rcases getElem?_setCall hx with ⟨-, rfl⟩ | hx
      · trivial
      · exact hsame hx
  | started hc hstage hid hp =>
      rcases getElem?_setCall hx with ⟨rfl, rfl⟩ | hx
      · refine ⟨hid, _, rfl, ?_⟩
        simp only [World.setCall, World.setProcess_self]
        exact writes_of_start hp
      · exact hsame hx
  | @resumed c i call y res p hc hstage hthread hret hp =>
      rcases getElem?_setCall hx with ⟨rfl, rfl⟩ | hx
      · cases res with
        | error err => trivial
        | ok id =>
            obtain ⟨hhash, hid, hhas⟩ := h.has_of_resumed hk hc hstage hthread hret
            exact attended_afterStore hhash hid (hhas.mono honward h.running h.log)
      · exact hsame hx
  | @forwarded c call id next downstream hc hstage hnext =>
      rcases getElem?_send hx with rfl | hx
      · trivial
      · rcases getElem?_setCall hx with ⟨rfl, rfl⟩ | hx
        · have hcall := hold (h.attended c' call hk hc)
          rw [Attended, hstage] at hcall
          obtain ⟨hhash, hid, hdial, hhas⟩ := hcall
          refine ⟨hhash, hid, hdial, hhas, h.count,
            { addr := next, chunkId := call.chunkId, data := call.data, downstream },
            ?_, rfl, hnext⟩
          simp [World.send, World.setCall]
        · exact hsame hx
  | @replied c c'' call call' id id' hc hstage hc'' hret =>
      rcases getElem?_setCall hx with ⟨rfl, rfl⟩ | hx
      · exact hold (attended_replied (h.attended c' call hk hc) hstage hc''
          (fun hk'' => h.attended c'' call' hk'' hc'') hret)
      · exact hsame hx
  | process hp => exact hsame hx
  | @crashed addr cuts p hp =>
      rw [List.getElem?_map] at hx
      obtain ⟨y, hy, rfl⟩ := Option.map_eq_some_iff.mp hx
      rcases y.die_cases addr with heq | ⟨-, heq⟩
      · rw [heq]
        exact hold (h.attended c' y hk hy)
      · rw [heq]
        trivial

/-! ### Runs -/

/-- Whatever the servers start with hashes to its name. -/
def Intact (fl : Fleet) (start : String → FS) : Prop :=
  ∀ addr id data, Valid id → get (start addr) (path (fl.root addr) id) = some data →
    hash fl.sum256 data = id

variable {now : Time} {referenced : ChunkID → Bool} {u : World}

/-- The servers go on. -/
abbrev Reaches (fl : Fleet) : World → World → Prop := Transition.Path (step fl) fun _ _ => True

theorem Running.run (hstart : Intact fl start) (h : Reaches fl (.init start now referenced) w) :
    Running fl start w :=
  h.invariant (fun addr => .init (hstart addr) now referenced)
    fun _ _ _ hw _ hs => hw.step (stepped hs)

theorem Reaches.continues (h : Reaches fl u w) {c : ℕ} {call : Call}
    (hc : u.calls[c]? = some call) :
    ∃ call', w.calls[c]? = some call' ∧ call.Continues call' := by
  refine h.invariant (I := fun w => ∃ call', w.calls[c]? = some call' ∧ call.Continues call')
    ⟨call, hc, .refl call⟩ ?_
  rintro v e v' ⟨call', hc', hcont⟩ - hs
  obtain ⟨call'', hc'', hcont'⟩ := (stepped hs).onward.calls c call' hc'
  exact ⟨call'', hc'', hcont.trans hcont'⟩

theorem Reaches.log (h : Reaches fl u w) (addr : String) :
    (u.processes addr).shared.log <+: (w.processes addr).shared.log := by
  refine h.invariant (I := fun w => (u.processes addr).shared.log <+: (w.processes addr).shared.log)
    List.prefix_rfl ?_
  exact fun v e v' hlog _ hs => hlog.trans ((stepped hs).onward.processes addr).log

theorem Reaches.length_le (h : Reaches fl u w) : u.calls.length ≤ w.calls.length :=
  h.invariant (I := fun w => u.calls.length ≤ w.calls.length) le_rfl
    fun _ _ _ hle _ hs => hle.trans (stepped hs).length_le

theorem Running.of_path (h : Running fl start u) (hw : Reaches fl u w) : Running fl start w :=
  hw.invariant h fun _ _ _ hw _ hs => hw.step (stepped hs)

/-- From any moment on, with what is there at this moment. -/
theorem Running.inv (h : Running fl start u) (hw : Reaches fl u w) :
    Inv fl start u.calls.length (fun addr => (u.processes addr).shared.log.length) w := by
  refine hw.invariant ⟨h, fun _ => le_rfl, le_rfl, ?_⟩ fun _ _ _ hw _ hs => hw.step (stepped hs)
  intro c call hc hcall
  exact absurd (List.getElem?_eq_some_iff.mp hcall).1 hc.not_gt

/-- What the server has logged since the moment `u` excuses that the data are missing. -/
def ExcusedSince (fl : Fleet) (u w : World) (addr : String) (data : List UInt8) : Prop :=
  Excused (fl.server addr) data
    ((w.processes addr).shared.log.drop (u.processes addr).shared.log.length)

theorem ExcusedSince.mono {v : World} {addr : String} {data : List UInt8}
    (h : ExcusedSince fl u v addr data) (hw : Reaches fl v w) : ExcusedSince fl u w addr data :=
  Excused.mono h ((hw.log addr).drop _).subset

/-- No other data that the server knows have the hash of these. -/
def Distinct (fl : Fleet) (start : String → FS) (w : World) (addr : String) (data : List UInt8) :
    Prop :=
  ∀ data', Known (fl.server addr) (start addr) (w.processes addr).shared.log data' →
    hash fl.sum256 data' = hash fl.sum256 data → data' = data

theorem Fleet.reached_eq (addr : String) (downstream : List String)
    (h : ∀ addr' ∈ addr :: downstream, fl.dialer addr' = true) :
    fl.reached addr downstream = addr :: downstream := by
  induction downstream generalizing addr with
  | nil => rfl
  | cons next downstream ih =>
      rw [reached, if_pos (h addr List.mem_cons_self),
        ih next fun addr' haddr' => h addr' (List.mem_cons_of_mem _ haddr')]

section Returned

-- a call that was sent after the moment `u` has returned an ID, and has come to the server
variable {c : ℕ} {call : Call} {id : ChunkID} {addr : String} (hsent : u.calls.length ≤ c)
  (hc : w.calls[c]? = some call) (hret : call.stage = .returned (.ok id))
  (haddr : addr ∈ fl.reached call.addr call.downstream)
  (hdistinct : Distinct fl start w addr call.data)
include hsent hc hret haddr hdistinct

theorem Running.stored (hu : Running fl start u) (hw : Reaches fl u w) :
    id = call.chunkId ∧
      (get (w.processes addr).shared.files (path (fl.root addr) id) = some call.data ∨
        ExcusedSince fl u w addr call.data) := by
  have hinv := hu.inv hw
  have hcall := hinv.attended c call hsent hc
  rw [Attended, hret] at hcall
  obtain ⟨hhash, rfl, hhas⟩ := hcall
  refine ⟨rfl, ?_⟩
  rw [← hhash]
  exact (hhas addr haddr).stored (hinv.running addr).orderly.1 hdistinct

/-- When a call has returned an ID, every server that it has come to has stored the data under this
ID, and has them as long as they are not deleted there, whatever else the servers do and however
often they die. The files at the start have to be intact, since `WriteChunk` leaves a damaged one
in its place. Deletions from before the call was sent do not count. On a server where a call with
the same data has found the ID in flight nothing is said. -/
theorem acknowledged_on_chain (hstart : Intact fl start)
    (hu : Reaches fl (.init start now referenced) u) (hw : Reaches fl u w) :
    id = call.chunkId ∧
      (get (w.processes addr).shared.files (path (fl.root addr) id) = some call.data ∨
        ExcusedSince fl u w addr call.data) :=
  Running.stored hsent hc hret haddr hdistinct (.run hstart hu) hw

end Returned

/-- Two servers. -/
def two : Fleet where
  toFleet := Pipeline.servers
  grace := 0

/-- A chunk goes to both servers, and then the process of the first one dies. -/
def relayed : List Event :=
  [.request "a" (hash sample.sum256 [1]) [1] ["b"], .handle 0] ++
  Pipeline.whenAbsent.map (fun answer => .process "a" (.op 0 answer)) ++
  [.resume 0, .forward 0 none, .handle 1] ++
  Pipeline.whenAbsent.map (fun answer => .process "b" (.op 0 answer)) ++
  [.resume 1, .takeReply 0, .crash "a" []]

def atRest : World := .init (fun _ => Store.empty) 0 fun _ => false

def relayedWorld : World :=
  Transition.final (Transition.guarded (step two) fun _ _ => True) atRest relayed

theorem atRest_relayedWorld : Reaches two atRest relayedWorld := .final (by decide +kernel)

theorem intact_empty : Intact two fun _ => Store.empty := by
  intro addr id data _ hget
  rw [get_empty] at hget
  cases hget

theorem relayedWorld_calls : relayedWorld.calls[0]? =
    some ⟨"a", hash sample.sum256 [1], [1], ["b"], .returned (.ok (hash sample.sum256 [1])),
      some 0⟩ := by
  decide +kernel

theorem relayedWorld_log : ∀ addr ∈ ["a", "b"], (relayedWorld.processes addr).shared.log =
    [.called 0 [1], .stored (path sample.root (hash sample.sum256 [1])) [1],
      .acked (hash sample.sum256 [1]) 0] := by
  decide +kernel

theorem relayedWorld_known {addr : String} (haddr : addr ∈ ["a", "b"]) {data : List UInt8}
    (h : Known (two.server addr) Store.empty (relayedWorld.processes addr).shared.log data) :
    data = [1] := by
  rcases h with hget | ⟨i, hcalled⟩
  · rw [get_empty] at hget
    cases hget
  · simp [relayedWorld_log addr haddr] at hcalled
    exact hcalled.2

theorem relayedWorld_unexcused {addr : String} (haddr : addr ∈ ["a", "b"]) (data : List UInt8) :
    ¬ ExcusedSince two atRest relayedWorld addr data := by
  rintro (⟨id, -, hdeleted⟩ | ⟨i, -, hjoined⟩)
  · have hmem := List.mem_of_mem_drop hdeleted
    simp [relayedWorld_log addr haddr] at hmem
  · have hmem := List.mem_of_mem_drop hjoined
    simp [relayedWorld_log addr haddr] at hmem

theorem acknowledged_on_chain_relayed : two.reached "a" ["b"] = ["a", "b"] ∧
    ∀ addr ∈ ["a", "b"], get (relayedWorld.processes addr).shared.files
      (path sample.root (hash sample.sum256 [1])) = some [1] := by
  have hreached : two.reached "a" ["b"] = ["a", "b"] := rfl
  refine ⟨hreached, fun addr haddr => ?_⟩
  have hall := acknowledged_on_chain (Nat.zero_le 0) relayedWorld_calls rfl (hreached ▸ haddr)
    (fun data hdata _ => relayedWorld_known haddr hdata) intact_empty .refl atRest_relayedWorld
  exact hall.2.resolve_right (relayedWorld_unexcused haddr _)

end VaultFS.Chunk.Servers
