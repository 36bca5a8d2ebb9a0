import VaultFS.Chunk.Repair

/-!
# The replication pipeline

`WriteChunk` of `internal/chunkserver/server.go`, which stores a chunk and forwards it to the next
server of a chain, each of them with a store of its own. The call to the next server is one request,
the whole of the call there, and one reply; each of the three can fail, and a reply can be lost when
everything behind it is done. A caller that gives up while the call goes on sees a state in the
middle of such a run.

At every moment the chunk has come to a first part of the chain (`Spread`), and on success to all of
it.
-/

namespace VaultFS.Chunk.Pipeline

open Interaction KeyValue Metadata

inductive Code where
  | invalidArgument
  | internal
  | unavailable
  deriving DecidableEq

def Code.text : Code → String
  | .invalidArgument => "InvalidArgument"
  | .internal => "Internal"
  | .unavailable => "Unavailable"

structure Status where
  code : Code
  message : String
  deriving DecidableEq

/-- The text of the status as an error. -/
def Status.text (status : Status) : String :=
  "rpc error: code = " ++ status.code.text ++ " desc = " ++ status.message

/-- The chunk servers by their addresses. -/
structure Fleet where
  sum256 : List UInt8 → Sum
  root : String → Path
  dialer : String → Bool

def Fleet.config (fl : Fleet) (addr : String) : Config where
  sum256 := fl.sum256
  root := fl.root addr
  grace := 0
  dialer := fl.dialer addr

inductive Hop where
  /-- An operation of the store at an address. -/
  | store (addr : String) (o : Op)
  | dial (source addr : String)
  /-- The request comes to the server. -/
  | request (addr : String)
  /-- Its reply comes back. -/
  | reply (addr : String)

abbrev Call := Prog fun _ : Hop => Answer

/-- The part of `WriteChunk` on the server itself. -/
def storeChunk (fl : Fleet) (addr : String) (id : ChunkID) (data : List UInt8) :
    Call (Except Status ChunkID) :=
  match verify fl.sum256 id data with
  | some err => return .error ⟨.invalidArgument, "chunk id does not match data: " ++ err⟩
  | none => do
      match ← (Chunk.writeChunk (fl.config addr) data).located (.store addr) with
      | .error err => return .error ⟨.internal, "store chunk: " ++ err⟩
      | .ok id => return .ok id

/-- `forward`, with the call on the next server. -/
def forward (addr next : String) (remote : Call (Except Status ChunkID)) :
    Call (Option Status) := do
  match ← Prog.op (.dial addr next) with
  | .failed err _ => return some ⟨.unavailable, "dial downstream " ++ next ++ ": " ++ err⟩
  | _ =>
      match ← Prog.op (.request next) with
      | .failed err _ => return some ⟨.unavailable, "forward to " ++ next ++ ": " ++ err⟩
      | _ =>
          let res ← remote
          match ← Prog.op (.reply next) with
          | .failed err _ => return some ⟨.unavailable, "forward to " ++ next ++ ": " ++ err⟩
          | _ =>
              match res with
              | .error status =>
                  return some ⟨.unavailable, "forward to " ++ next ++ ": " ++ status.text⟩
              | .ok _ => return none

/-- `WriteChunk` with the rest of the chain. -/
def writeChunk (fl : Fleet) (id : ChunkID) (data : List UInt8) :
    List String → String → Call (Except Status ChunkID)
  | [], addr => storeChunk fl addr id data
  | next :: downstream, addr => do
      match ← storeChunk fl addr id data with
      | .error status => return .error status
      | .ok stored =>
          if fl.dialer addr = false then return .ok stored
          else
            match ← forward addr next (writeChunk fl id data downstream next) with
            | some status => return .error status
            | none => return .ok stored

def serve (fl : Fleet) (i : ℕ) (w : String → Shared) : Hop → Answer → Option (String → Shared)
  | .store addr o, a => (Chunk.serve (fl.config addr) i (w addr) o a).map (Function.update w addr)
  | _, .done => some w
  | _, .failed _ _ => some w
  | _, _ => none

/-- The chunks are those of `w₀`, with the data on the servers `addrs`. -/
def Spread (fl : Fleet) (data : List UInt8) (w₀ : String → Shared) (addrs : List String)
    (w : String → Shared) : Prop :=
  ∀ addr id, Valid id → get (w addr).files (path (fl.root addr) id) =
    if id = hash fl.sum256 data ∧ addr ∈ addrs then some data
    else get (w₀ addr).files (path (fl.root addr) id)

/-- The state of the servers before a call: they have dialers, all files hash to their IDs, those
with the hash of the data are the data, and nothing is going on. -/
structure Ready (fl : Fleet) (data : List UInt8) (w : String → Shared) : Prop where
  dialer : ∀ addr, fl.dialer addr = true
  intact : ∀ addr, Intact (fl.config addr) (w addr)
  noCollision : ∀ addr content, get (w addr).files (dest (fl.config addr) data) = some content →
    hash fl.sum256 content = hash fl.sum256 data → content = data
  idle : ∀ addr, (w addr).writing = fun _ => none

variable {fl : Fleet} {i : ℕ} {data : List UInt8} {w₀ w : String → Shared} {addrs : List String}
  {addr : String}

theorem Ready.eq_data (h : Ready fl data w) {content : List UInt8}
    (hget : get (w addr).files (dest (fl.config addr) data) = some content) : content = data :=
  h.noCollision addr content hget (h.intact addr _ content (valid_hash fl.sum256 data) hget)

namespace Spread

theorem refl (fl : Fleet) (data : List UInt8) (w : String → Shared) : Spread fl data w [] w := by
  intro addr id _
  simp

theorem get_dest (h : Spread fl data w₀ addrs w) (hready : Ready fl data w₀)
    (hsome : (get (w addr).files (dest (fl.config addr) data)).isSome) :
    get (w addr).files (dest (fl.config addr) data) = some data := by
  have heq := h addr _ (valid_hash fl.sum256 data)
  change get (w addr).files (dest (fl.config addr) data) = _ at heq
  split at heq
  · exact heq
  · obtain ⟨content, hget⟩ := Option.isSome_iff_exists.mp hsome
    rw [hget] at heq
    rw [hget, hready.eq_data heq.symm]

/-- A server whose chunks stay the same. -/
theorem stays (h : Spread fl data w₀ addrs w) {s : Shared}
    (hs : Stays (fl.config addr) (w addr) s) :
    Spread fl data w₀ addrs (Function.update w addr s) := by
  intro addr' id hid
  by_cases heq : addr' = addr
  · subst heq
    rw [Function.update_self]
    exact (hs id hid).trans (h addr' id hid)
  · rw [Function.update_of_ne heq]
    exact h addr' id hid

/-- The data come to a server. -/
theorem gains (h : Spread fl data w₀ addrs w) {s : Shared}
    (hs : Gains (fl.config addr) data (w addr) s) :
    Spread fl data w₀ (addrs ++ [addr]) (Function.update w addr s) := by
  intro addr' id hid
  by_cases heq : addr' = addr
  · subst heq
    rw [Function.update_self]
    by_cases hhash : id = hash fl.sum256 data
    · subst hhash
      rw [if_pos ⟨rfl, List.mem_append_right _ List.mem_cons_self⟩]
      exact hs.stored
    · rw [if_neg fun hand => hhash hand.1]
      refine (hs.other id hid hhash).trans ((h addr' id hid).trans ?_)
      rw [if_neg fun hand => hhash hand.1]
  · rw [Function.update_of_ne heq, h addr' id hid]
    simp [heq]

/-- A server that has the data counts as one they have come to. -/
theorem found (h : Spread fl data w₀ addrs w)
    (hget : get (w addr).files (dest (fl.config addr) data) = some data) :
    Spread fl data w₀ (addrs ++ [addr]) w := by
  intro addr' id hid
  by_cases hnew : id = hash fl.sum256 data ∧ addr' = addr
  · obtain ⟨rfl, rfl⟩ := hnew
    rw [if_pos ⟨rfl, List.mem_append_right _ List.mem_cons_self⟩]
    exact hget
  · rw [h addr' id hid]
    refine if_congr ?_ rfl rfl
    rw [List.mem_append, List.mem_singleton]
    tauto

end Spread

/-- Nothing is going on. -/
def Idle (w : String → Shared) : Prop := ∀ addr, (w addr).writing = fun _ => none

theorem Idle.update (h : Idle w) {s : Shared} (hs : s.writing = (w addr).writing) :
    Idle (Function.update w addr s) := by
  intro addr'
  by_cases heq : addr' = addr
  · subst heq
    rw [Function.update_self, hs]
    exact h addr'
  · rw [Function.update_of_ne heq]
    exact h addr'

/-- The data have come to a first part of the servers in turn. -/
def Partly (fl : Fleet) (data : List UInt8) (w₀ : String → Shared) (addrs chain : List String)
    (w : String → Shared) : Prop :=
  ∃ n, Spread fl data w₀ (addrs ++ chain.take n) w

/-- The state when a call with this chain returns. -/
structure Returned (fl : Fleet) (data : List UInt8) (w₀ : String → Shared)
    (addrs chain : List String) (res : Except Status ChunkID) (w : String → Shared) : Prop where
  idle : Idle w
  partly : Partly fl data w₀ addrs chain w
  all : ∀ id, res = .ok id → id = hash fl.sum256 data ∧ Spread fl data w₀ (addrs ++ chain) w

theorem Spread.partly (h : Spread fl data w₀ addrs w) (chain : List String) :
    Partly fl data w₀ addrs chain w :=
  ⟨0, by rwa [List.take_zero, List.append_nil]⟩

theorem Partly.cons {chain : List String} (h : Partly fl data w₀ (addrs ++ [addr]) chain w) :
    Partly fl data w₀ addrs (addr :: chain) w := by
  obtain ⟨n, hspread⟩ := h
  refine ⟨n + 1, ?_⟩
  rwa [List.take_succ_cons, List.append_cons]

theorem Spread.partly_cons (h : Spread fl data w₀ (addrs ++ [addr]) w) (chain : List String) :
    Partly fl data w₀ addrs (addr :: chain) w :=
  (h.partly chain).cons

/-- The state when the server at the address has stored the chunk, or failed to. -/
def Stored {ε : Type} (fl : Fleet) (data : List UInt8) (w₀ : String → Shared) (addrs : List String)
    (addr : String) (res : Except ε ChunkID) (w : String → Shared) : Prop :=
  Idle w ∧ match res with
    | .error _ => Spread fl data w₀ addrs w
    | .ok id => id = hash fl.sum256 data ∧ Spread fl data w₀ (addrs ++ [addr]) w

section Store

variable (hready : Ready fl data w₀) (h : Spread fl data w₀ addrs w) (hidle : Idle w)
include hready h hidle

/-- The `WriteChunk` of the store. -/
theorem ensures_located (addr : String) (chain : List String) :
    Prog.Ensures (serve fl i) (Partly fl data w₀ addrs (addr :: chain))
      (Stored fl data w₀ addrs addr) w
      ((Chunk.writeChunk (fl.config addr) data).located (.store addr)) := by
  have hfree : (w addr).writing (hash (fl.config addr).sum256 data) = none := by rw [hidle addr]
  refine ((ensures_writeChunk hfree).located fun _ _ _ => rfl).weaken ?_ ?_
  · rintro _ ⟨s, rfl, hstays | hgains⟩
    · exact (h.stays hstays).partly _
    · exact (h.gains hgains).partly_cons chain
  · rintro res _ ⟨s, rfl, hwritten, hwriting⟩
    refine ⟨hidle.update hwriting, ?_⟩
    cases res with
    | error err => exact h.stays hwritten
    | ok id =>
        obtain ⟨rfl, ⟨hstays, hsome⟩ | hgains⟩ := hwritten
        · exact ⟨rfl, (h.found (h.get_dest hready hsome)).stays hstays⟩
        · exact ⟨rfl, h.gains hgains⟩

theorem ensures_storeChunk (addr : String) (chain : List String) :
    Prog.Ensures (serve fl i) (Partly fl data w₀ addrs (addr :: chain))
      (Stored fl data w₀ addrs addr) w (storeChunk fl addr (hash fl.sum256 data) data) := by
  rw [storeChunk]
  simp only [verify_hash]
  refine .bind (ensures_located hready h hidle addr chain) fun res w' hcut hres => ?_
  cases res <;> exact .ret hcut hres

end Store

/-- An operation of the network changes no store. -/
theorem ensures_hop {C : (String → Shared) → Prop} {hop : Hop}
    (hhop : ∀ addr o, hop ≠ .store addr o) (hcut : C w) :
    Prog.Ensures (serve fl i) C (fun _ w' => w' = w) w (.op hop) := by
  refine .op hcut ?_
  intro a w' hw'
  have heq : w' = w := by
    cases hop with
    | store addr o => exact absurd rfl (hhop addr o)
    | dial | request | reply =>
        cases a <;> simp only [serve, Option.some.injEq, reduceCtorEq] at hw'
        all_goals exact hw'.symm
  rw [heq]
  exact ⟨hcut, rfl⟩

/-- Forwarding, after what the call on the next server does. -/
theorem ensures_forward {chain : List String} {remote : Call (Except Status ChunkID)}
    (addr next : String) (hidle : Idle w) (hpartly : Partly fl data w₀ addrs chain w)
    (h : Prog.Ensures (serve fl i) (Partly fl data w₀ addrs chain)
      (Returned fl data w₀ addrs chain) w remote) :
    Prog.Ensures (serve fl i) (Partly fl data w₀ addrs chain)
      (fun res w' => Idle w' ∧ Partly fl data w₀ addrs chain w' ∧
        (res = none → Spread fl data w₀ (addrs ++ chain) w')) w (forward addr next remote) := by
  rw [forward]
  refine .bind (ensures_hop nofun hpartly) fun a w₁ _ hw₁ => ?_
  subst hw₁
  split
  · exact .ret hpartly ⟨hidle, hpartly, nofun⟩
  · refine .bind (ensures_hop nofun hpartly) fun b w₂ _ hw₂ => ?_
    subst hw₂
    split
    · exact .ret hpartly ⟨hidle, hpartly, nofun⟩
    · refine .bind h fun res w₃ hcut hreturned => ?_
      refine .bind (ensures_hop nofun hcut) fun c w₄ _ hw₄ => ?_
      subst hw₄
      split
      · exact .ret hcut ⟨hreturned.idle, hcut, nofun⟩
      · cases res with
        | error status => exact .ret hcut ⟨hreturned.idle, hcut, nofun⟩
        | ok id => exact .ret hcut ⟨hreturned.idle, hcut, fun _ => (hreturned.all id rfl).2⟩

/-- A call with any chain. The induction is on the rest of the chain, and the servers before it have
the data. -/
theorem ensures_writeChunk (hready : Ready fl data w₀) (downstream : List String) (addr : String)
    (h : Spread fl data w₀ addrs w) (hidle : Idle w) :
    Prog.Ensures (serve fl i) (Partly fl data w₀ addrs (addr :: downstream))
      (Returned fl data w₀ addrs (addr :: downstream)) w
      (writeChunk fl (hash fl.sum256 data) data downstream addr) := by
  induction downstream generalizing addr addrs w with
  | nil =>
      refine (ensures_storeChunk hready h hidle addr []).weaken (fun _ hcut => hcut) ?_
      rintro res w' ⟨hidle', hstored⟩
      cases res with
      | error status => exact ⟨hidle', hstored.partly _, nofun⟩
      | ok id =>
          refine ⟨hidle', hstored.2.partly_cons [], ?_⟩
          rintro id' ⟨⟩
          exact hstored
  | cons next downstream ih =>
      rw [writeChunk]
      refine .bind (ensures_storeChunk hready h hidle addr (next :: downstream))
        fun res w' hcut ⟨hidle', hstored⟩ => ?_
      cases res with
      | error status => exact .ret hcut ⟨hidle', hcut, nofun⟩
      | ok id =>
          obtain ⟨rfl, hspread⟩ := hstored
          simp only [hready.dialer addr, Bool.true_eq_false, if_false]
          have hforward := ensures_forward addr next hidle' (hspread.partly (next :: downstream))
            (ih next hspread hidle')
          refine .bind (hforward.weaken (fun _ hw => hw.cons) fun _ _ hq => hq)
            fun res w'' hcut' ⟨hidle'', hpartly, hall⟩ => ?_
          cases res with
          | some status => exact .ret hcut' ⟨hidle'', hcut', nofun⟩
          | none =>
              refine .ret hcut' ⟨hidle'', hcut', ?_⟩
              rintro id' ⟨⟩
              refine ⟨rfl, ?_⟩
              have hspread' := hall rfl
              rwa [← List.append_cons] at hspread'

/-- With an ID that does not match the data, the call returns before it does anything. -/
theorem writeChunk_mismatch {id : ChunkID} (h : id ≠ hash fl.sum256 data) (downstream : List String)
    (addr : String) : ∃ message,
      writeChunk fl id data downstream addr = .ret (.error ⟨.invalidArgument, message⟩) := by
  have hstore : ∃ message, storeChunk fl addr id data =
      .ret (.error ⟨.invalidArgument, message⟩) := by
    rw [storeChunk, verify, if_pos (Ne.symm h)]
    exact ⟨_, rfl⟩
  obtain ⟨message, hstore⟩ := hstore
  cases downstream with
  | nil => exact ⟨message, hstore⟩
  | cons next downstream =>
      refine ⟨message, ?_⟩
      rw [writeChunk, hstore]
      rfl

/-- What a call has done, from `w₀` to `w`, and its result if it has returned. -/
structure Covers (fl : Fleet) (id : ChunkID) (data : List UInt8) (chain : List String)
    (w₀ w : String → Shared) (res : Option (Except Status ChunkID)) : Prop where
  /-- On success the whole chain has the data. -/
  acked : ∀ id', res = some (.ok id') → id' = id ∧
    ∀ addr ∈ chain, ReadsBack (fl.config addr) (w addr) id data
  /-- A first part of the chain has been given them. -/
  holders : ∃ n, ∀ addr, ReadsBack (fl.config addr) (w addr) id data ↔
    ReadsBack (fl.config addr) (w₀ addr) id data ∨ addr ∈ chain.take n
  other : ∀ addr id', Valid id' → id' ≠ id →
    get (w addr).files (path (fl.root addr) id') = get (w₀ addr).files (path (fl.root addr) id')
  mismatch : id ≠ hash fl.sum256 data → w = w₀

theorem Spread.readsBack_iff (h : Spread fl data w₀ addrs w) :
    ReadsBack (fl.config addr) (w addr) (hash fl.sum256 data) data ↔
      ReadsBack (fl.config addr) (w₀ addr) (hash fl.sum256 data) data ∨ addr ∈ addrs := by
  have hget := h addr _ (valid_hash fl.sum256 data)
  rw [Chunk.readsBack_iff, Chunk.readsBack_iff]
  change get (w addr).files (path (fl.root addr) _) = _ ∧ _ ↔
    get (w₀ addr).files (path (fl.root addr) _) = _ ∧ _ ∨ _
  rw [hget]
  by_cases hmem : addr ∈ addrs
  · simp [hmem, Fleet.config]
  · simp [hmem]

theorem Spread.other (h : Spread fl data w₀ addrs w) {id : ChunkID} (hid : Valid id)
    (hne : id ≠ hash fl.sum256 data) :
    get (w addr).files (path (fl.root addr) id) = get (w₀ addr).files (path (fl.root addr) id) := by
  rw [h addr id hid, if_neg fun hand => hne hand.1]

/-- A run of `WriteChunk` with any chain, at any moment. -/
theorem pipeline_covers (hready : Ready fl data w₀) {id : ChunkID} {downstream : List String}
    {primary : String} {answers : List Answer} {q : Call (Except Status ChunkID)}
    (hplay : (writeChunk fl id data downstream primary).play (serve fl i) w₀ answers =
      some (w, q)) : Covers fl id data (primary :: downstream) w₀ w q.result? := by
  by_cases hid : id = hash fl.sum256 data
  · subst hid
    have hensures : Prog.Ensures (serve fl i) (Partly fl data w₀ [] (primary :: downstream))
        (Returned fl data w₀ [] (primary :: downstream)) w₀
        (writeChunk fl (hash fl.sum256 data) data downstream primary) :=
      ensures_writeChunk hready downstream primary (.refl fl data w₀) hready.idle
    obtain ⟨n, hspread⟩ := hensures.cut hplay
    refine ⟨?_, ⟨n, fun addr => hspread.readsBack_iff⟩, fun addr id' => hspread.other,
      fun hne => absurd rfl hne⟩
    intro id' hres
    obtain ⟨rfl, hall⟩ := (hensures.ended hplay hres).all id' rfl
    exact ⟨rfl, fun addr hmem => hall.readsBack_iff.mpr (.inr hmem)⟩
  · obtain ⟨message, hcall⟩ := writeChunk_mismatch hid downstream primary
    rw [hcall] at hplay
    cases answers with
    | nil =>
        obtain ⟨rfl, rfl⟩ := Prod.mk.inj (Option.some.inj hplay)
        exact ⟨nofun, ⟨0, fun addr => by simp⟩, fun _ _ _ _ => rfl, fun _ => rfl⟩
    | cons a answers => cases hplay

section Runs

/-- Servers with the hash of the sample and one root. -/
def servers : Fleet where
  sum256 := sample.sum256
  root := fun _ => sample.root
  dialer := fun _ => true

/-- The answers to a `WriteChunk` of the store that finds no file. -/
def whenAbsent : List Answer :=
  [.done, .flag false, .notExist, .done, .name ['0'], .done, .done, .done, .done, .notExist, .done]

/-- The answers to one that finds a file. -/
def whenPresent : List Answer := [.done, .flag false, .done, .done]

/-- The stores are empty but for those at the given addresses, which have the chunk `[1]`. -/
def holding (addrs : List String) (addr : String) : Shared :=
  if addr ∈ addrs then
    (World.init (put Store.empty (dest sample [1]) [1]) 0 fun _ => false).shared
  else vacant

theorem get_holding {addrs : List String} {addr : String} {k : Path} {content : List UInt8}
    (h : get (holding addrs addr).files k = some content) :
    addr ∈ addrs ∧ k = dest sample [1] ∧ content = [1] := by
  rw [holding] at h
  split at h
  · rename_i hmem
    change get (put Store.empty (dest sample [1]) [1]) k = some content at h
    rw [get_put, get_empty] at h
    split at h
    · rename_i heq
      exact ⟨hmem, heq, (Option.some.inj h).symm⟩
    · cases h
  · rw [get_vacant] at h
    cases h

theorem ready_holding (addrs : List String) : Ready servers [1] (holding addrs) where
  dialer := fun _ => rfl
  intact := by
    intro addr id content hid hget
    obtain ⟨-, hpath, rfl⟩ := get_holding hget
    exact (path_injective hid (valid_hash sample.sum256 [1]) hpath).symm
  noCollision := fun _ _ hget _ => (get_holding hget).2.2
  idle := by
    intro addr
    rw [holding]
    split <;> rfl

/-- The call with the chunk `[1]`. -/
def outcome (addrs : List String) (downstream : List String) (primary : String)
    (answers : List Answer) : Option ((String → Shared) × Call (Except Status ChunkID)) :=
  (writeChunk servers (hash sample.sum256 [1]) [1] downstream primary).play (serve servers 0)
    (holding addrs) answers

/-- The chain comes back to the first server. -/
def again : List Answer :=
  whenAbsent ++ [.done, .done] ++ whenAbsent ++ [.done, .done] ++ whenPresent ++ [.done, .done]

theorem pipeline_covers_again : ∃ w q, outcome [] ["b", "a"] "a" again = some (w, q) ∧
    q.result? = some (.ok (hash sample.sum256 [1])) ∧
    ReadsBack (servers.config "a") (w "a") (hash sample.sum256 [1]) [1] ∧
    ReadsBack (servers.config "b") (w "b") (hash sample.sum256 [1]) [1] := by
  have hresult : (outcome [] ["b", "a"] "a" again).bind (fun x => x.2.result?) =
      some (.ok (hash sample.sum256 [1])) := by decide +kernel
  obtain ⟨⟨w, q⟩, hplay, hres⟩ := Option.bind_eq_some_iff.mp hresult
  have hall := ((pipeline_covers (ready_holding []) hplay).acked _ hres).2
  exact ⟨w, q, hplay, hres, hall "a" (by simp), hall "b" (by simp)⟩

/-- The server in the middle has the chunk, and its reply to the first one is lost. -/
def replyLost : List Answer :=
  whenAbsent ++ [.done, .done] ++ whenPresent ++ [.done, .done] ++ whenAbsent ++
    [.done, .failed "connection lost" 0]

/-- The servers that hold the chunk newly are then the first and the last. -/
theorem newly_not_first_part : ∃ w q, outcome ["b"] ["b", "c"] "a" replyLost = some (w, q) ∧
    q.result? = some (.error ⟨.unavailable, "forward to b: connection lost"⟩) ∧
    Ready servers [1] (holding ["b"]) ∧
    ¬ ∃ n, ∀ addr, addr ∈ ["a", "b", "c"].take n ↔
      ReadsBack (servers.config addr) (w addr) (hash sample.sum256 [1]) [1] ∧
      ¬ ReadsBack (servers.config addr) (holding ["b"] addr) (hash sample.sum256 [1]) [1] := by
  have hresult : (outcome ["b"] ["b", "c"] "a" replyLost).map
      (fun x => (get (x.1 "c").files (dest sample [1]), x.2.result?)) =
        some (some [1], some (.error ⟨.unavailable, "forward to b: connection lost"⟩)) := by
    decide +kernel
  obtain ⟨⟨w, q⟩, hplay, heq⟩ := Option.map_eq_some_iff.mp hresult
  obtain ⟨hget, hres⟩ := Prod.mk.inj heq
  refine ⟨w, q, hplay, hres, ready_holding ["b"], ?_⟩
  rintro ⟨n, hn⟩
  have hnew : "c" ∈ ["a", "b", "c"].take n := by
    refine (hn "c").mpr ⟨readsBack_iff.mpr ⟨hget, rfl⟩, ?_⟩
    intro hread
    exact absurd (get_holding (readsBack_iff.mp hread).1).1 (by decide)
  have hold : "b" ∈ ["a", "b", "c"].take n := by
    match n with
    | 0 | 1 | 2 => exact absurd hnew (by decide)
    | n + 3 => simp
  refine ((hn "b").mp hold).2 (readsBack_iff.mpr ⟨?_, rfl⟩)
  exact get_put_self _ _ _

end Runs

end VaultFS.Chunk.Pipeline
