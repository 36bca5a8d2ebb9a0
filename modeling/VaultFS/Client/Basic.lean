import VaultFS.Interaction.Basic
import VaultFS.Master.Server

/-!
# Calls to the masters

`pkg/client/retry.go` and the failover of `pkg/client/client.go`, as programs that ask for
operations: the context and the time, the connections, and the requests to masters and chunk
servers. A client tries its masters in the order of its list. With each it retries errors that are
worth it, and it goes on to the next one when they do not go away.

An address of a master stands for the master (`M`). `FinalizeWrite` is two operations, since other
things happen between the moment its handler starts to propose the command and its answer.
-/

namespace VaultFS.Client

open Metadata Master Interaction

inductive Error where
  /-- The status of an RPC. -/
  | status (st : Status)
  /-- `context.DeadlineExceeded` or `context.Canceled`. -/
  | context (deadline : Bool)
  | text (msg : String)
  /-- An error with a text before it, as `fmt.Errorf` with `%w` makes it. -/
  | wrapped (msg : String) (err : Error)
  deriving DecidableEq

namespace Error

/-- `status.Code`; there is none where it says `Unknown`. -/
def code : Error → Option Code
  | status st => some st.code
  | wrapped _ err => err.code
  | _ => none

def isTransient (err : Error) : Bool :=
  match err.code with
  | some .unavailable | some .deadlineExceeded | some .aborted => true
  | _ => false

end Error

/-- What a client asks of its surroundings. -/
inductive Op (M : Type*) where
  /-- `ctx.Err()`. -/
  | ctxErr
  /-- Wait for the delay or the end of the context, whichever comes first. -/
  | wait (delay : Time)
  | conn (addr : M)
  | stat (addr : M) (path : List Char)
  | openForRead (addr : M) (path : List Char)
  | openForWrite (addr : M) (path : List Char) (chunkIds : List String)
  /-- A request whose handler proposes the command. -/
  | request (addr : M) (cmd : Command)
  /-- The answer to it, once the call of `propose` has returned. -/
  | response (call : ℕ) (path : List Char)
  | chunkClient (addr : String)
  | writeChunk (addr chunkId : String) (data : List UInt8) (downstream : List String)
  | readChunk (addr chunkId : String)
  /-- `os.Create`. -/
  | create (path : String)
  /-- Write to the file that was created; a failed write says how many bytes it wrote. -/
  | write (data : List UInt8)

abbrev Res {M : Type*} : Op M → Type
  | .ctxErr => Option Bool
  | .wait _ => Option Bool
  | .conn _ => Except Error Unit
  | .stat _ _ => Except Status Server.FileInfoProto
  | .openForRead _ _ => Except Status Server.OpenForReadResponse
  | .openForWrite _ _ _ => Except Status (List Server.ChunkLocation)
  | .request _ _ => Except Status ℕ
  | .response _ _ => Except Status Server.FileInfoProto
  | .chunkClient _ => Except Error Unit
  | .writeChunk _ _ _ _ => Except Status Unit
  | .readChunk _ _ => Except Status (List UInt8)
  | .create _ => Except Error Unit
  | .write _ => Except (ℕ × Error) Unit

abbrev Act (M : Type*) (α : Type) := Prog (Res (M := M)) α

variable {M : Type*} {α : Type}

def ask (op : Op M) : Act M (Res op) := .op op

/-- The errors of an RPC are statuses. -/
def rpc (answer : Act M (Except Status α)) : Act M (Except Error α) := do
  return (← answer).mapError .status

structure RetryPolicy where
  maxAttempts : ℕ
  baseDelay : Time
  maxDelay : Time
  maxAttempts_pos : 0 < maxAttempts

namespace RetryPolicy

/-- 4 attempts, with delays from 50 ms to a second. -/
def default : RetryPolicy := ⟨4, 50 * 1000000, 1000000000, by decide⟩

/-- The loop, with `left` attempts after this one. -/
def doFrom (rp : RetryPolicy) (op : Act M (Except Error α)) (left : ℕ) (delay : Time) :
    Act M (Except Error α) := do
  match ← op with
  | .ok a => return .ok a
  | .error err =>
      if !err.isTransient then return .error err
      else match left with
        | 0 => return .error err
        | left + 1 =>
            match ← ask (.wait delay) with
            | some deadline => return .error (.context deadline)
            | none => rp.doFrom op left (if delay * 2 > rp.maxDelay then rp.maxDelay else delay * 2)

def doOp (rp : RetryPolicy) (op : Act M (Except Error α)) : Act M (Except Error α) :=
  rp.doFrom op (rp.maxAttempts - 1) rp.baseDelay

end RetryPolicy

def errNoMaster : Error := .text "client: no reachable master"

/-- The loop of `callMaster` over the addresses. -/
def callMasterFrom (rp : RetryPolicy) (fn : M → Act M (Except Error α)) :
    List M → Option Error → Act M (Except Error α)
  | [], lastErr => return .error (lastErr.getD errNoMaster)
  | addr :: addrs, _ => do
      match ← ask .ctxErr with
      | some deadline => return .error (.context deadline)
      | none =>
          match ← ask (.conn addr) with
          | .error err => callMasterFrom rp fn addrs (some err)
          | .ok _ =>
              match ← rp.doOp (fn addr) with
              | .ok a => return .ok a
              | .error err =>
                  if !err.isTransient then return .error err
                  else callMasterFrom rp fn addrs (some err)

def callMaster (rp : RetryPolicy) (masterAddrs : List M) (fn : M → Act M (Except Error α)) :
    Act M (Except Error α) :=
  callMasterFrom rp fn masterAddrs none

/-! ### Requests -/

section Requests

variable (rp : RetryPolicy) (masterAddrs : List M) (path : List Char)

def openForRead : Act M (Except Error Server.OpenForReadResponse) :=
  callMaster rp masterAddrs fun m => rpc (ask (.openForRead m path))

def openForWrite (chunkIds : List String) : Act M (Except Error (List Server.ChunkLocation)) :=
  callMaster rp masterAddrs fun m => rpc (ask (.openForWrite m path chunkIds))

/-- One attempt of `FinalizeWrite`. -/
def finalizeAttempt (m : M) (chunkIds : List String) (size : ℤ) :
    Act M (Except Error Server.FileInfoProto) := do
  match ← ask (.request m { kind := .finalize, path, chunkIDs := chunkIds, size }) with
  | .error st => return .error (.status st)
  | .ok call => rpc (ask (.response call path))

def finalizeWrite (chunkIds : List String) (size : ℤ) : Act M (Except Error Server.FileInfoProto) :=
  callMaster rp masterAddrs fun m => finalizeAttempt path m chunkIds size

/-- `Stat` of the client. -/
def stat : Act M (Except Error Server.FileInfoProto) := do
  match ← callMaster rp masterAddrs fun m => rpc (ask (.stat m path)) with
  | .error err => return .error (.wrapped ("client: stat " ++ String.ofList path ++ ": ") err)
  | .ok file => return .ok file

end Requests

/-! ### What a call can request -/

/-- Of the commands, only those that satisfy the predicate are requested. -/
def Op.Requests (Q : Command → Prop) : Op M → Prop
  | .request _ cmd => Q cmd
  | _ => True

section Only

variable {Q : Command → Prop}

theorem rpc_only {p : Act M (Except Status α)} (hp : p.Only (Op.Requests Q)) :
    (rpc p).Only (Op.Requests Q) :=
  hp.bind fun _ => trivial

theorem doFrom_only {rp : RetryPolicy} {op : Act M (Except Error α)}
    (hop : op.Only (Op.Requests Q)) (left : ℕ) (delay : Time) :
    (rp.doFrom op left delay).Only (Op.Requests Q) := by
  induction left generalizing delay with
  | zero =>
      unfold RetryPolicy.doFrom
      refine hop.bind fun r => ?_
      cases r with
      | ok a => trivial
      | error err =>
          dsimp only
          split <;> trivial
  | succ left ih =>
      unfold RetryPolicy.doFrom
      refine hop.bind fun r => ?_
      cases r with
      | ok a => trivial
      | error err =>
          dsimp only
          split
          · trivial
          · refine Prog.Only.bind (.op trivial) fun d => ?_
            cases d with
            | some deadline => trivial
            | none => exact ih _

theorem doOp_only {rp : RetryPolicy} {op : Act M (Except Error α)}
    (hop : op.Only (Op.Requests Q)) : (rp.doOp op).Only (Op.Requests Q) :=
  doFrom_only hop _ _

theorem callMaster_only {rp : RetryPolicy} {addrs : List M} {fn : M → Act M (Except Error α)}
    (hfn : ∀ m, (fn m).Only (Op.Requests Q)) : (callMaster rp addrs fn).Only (Op.Requests Q) := by
  have hfrom : ∀ lastErr, (callMasterFrom rp fn addrs lastErr).Only (Op.Requests Q) := by
    induction addrs with
    | nil => exact fun _ => trivial
    | cons addr addrs ih =>
        intro _
        refine Prog.Only.bind (.op trivial) fun d => ?_
        cases d with
        | some deadline => trivial
        | none =>
            refine Prog.Only.bind (.op trivial) fun r => ?_
            cases r with
            | error err => exact ih _
            | ok _ =>
                refine Prog.Only.bind (doOp_only (hfn addr)) fun r => ?_
                cases r with
                | ok a => trivial
                | error err =>
                    dsimp only
                    split
                    · trivial
                    · exact ih _
  exact hfrom none

/-- The only command a client requests here is the one of `FinalizeWrite`. -/
theorem finalizeWrite_only {rp : RetryPolicy} {addrs : List M} {path : List Char}
    {chunkIds : List String} {size : ℤ}
    (hQ : Q { kind := .finalize, path, chunkIDs := chunkIds, size }) :
    (finalizeWrite rp addrs path chunkIds size).Only (Op.Requests Q) := by
  refine callMaster_only fun m => ?_
  refine Prog.Only.bind (.op hQ) fun r => ?_
  cases r with
  | error st => trivial
  | ok call => exact rpc_only (.op trivial)

end Only

/-! ### What a call can end with -/

section Run

open Transition

variable {σ ε : Type*} {step : σ → ε → Option σ} {ok : σ → ε → Prop}
  {serves : σ → (op : Op M) → Res op → σ → Prop} {s t : σ}

/-- Between the states there is a run of the program with this result. -/
def Attempted (step : σ → ε → Option σ) (ok : σ → ε → Prop)
    (serves : σ → (op : Op M) → Res op → σ → Prop) (s : σ) (p : Act M α) (a : α) (t : σ) : Prop :=
  ∃ s' t', Path step ok s s' ∧ Run step ok serves s' p a t' ∧ Path step ok t' t

theorem Attempted.of_path {s' : σ} {p : Act M α} {a : α} (hp : Path step ok s s')
    (h : Attempted step ok serves s' p a t) : Attempted step ok serves s p a t := by
  obtain ⟨u, v, hu, hrun, hv⟩ := h
  exact ⟨u, v, hp.trans hu, hrun, hv⟩

theorem run_rpc {p : Act M (Except Status α)} {r : Except Error α}
    (h : Run step ok serves s (rpc p) r t) :
    ∃ r', r = r'.mapError .status ∧ Attempted step ok serves s p r' t := by
  obtain ⟨r', u, hp, hrest⟩ := run_bind h
  obtain ⟨rfl, hpath⟩ := run_ret hrest
  exact ⟨r', rfl, s, u, .refl, hp, hpath⟩

/-- A call ends with the result of an attempt with one of the masters, because of the context, or
because a master could not be dialed. -/
inductive CallEnds (step : σ → ε → Option σ) (ok : σ → ε → Prop)
    (serves : σ → (op : Op M) → Res op → σ → Prop) (s : σ) (fn : M → Act M (Except Error α))
    (addrs : List M) (t : σ) : Except Error α → Prop where
  | attempt {m : M} {res : Except Error α} (hm : m ∈ addrs)
      (h : Attempted step ok serves s (fn m) res t) : CallEnds step ok serves s fn addrs t res
  | context (deadline : Bool) : CallEnds step ok serves s fn addrs t (.error (.context deadline))
  | undialed {m : M} {err : Error} (hm : m ∈ addrs)
      (h : Attempted step ok serves s (ask (.conn m)) (.error err) t) :
      CallEnds step ok serves s fn addrs t (.error err)

variable (hserves : ∀ s op r t, serves s op r t → Path step ok s t)
include hserves

/-- A retried operation ends with the result of an attempt or because of the context. -/
theorem doFrom_run {rp : RetryPolicy} {op : Act M (Except Error α)} {left : ℕ} {delay : Time}
    {res : Except Error α} (h : Run step ok serves s (rp.doFrom op left delay) res t) :
    Attempted step ok serves s op res t ∨ ∃ deadline, res = .error (.context deadline) := by
  induction left generalizing s delay with
  | zero =>
      unfold RetryPolicy.doFrom at h
      obtain ⟨r, u, hop, hrest⟩ := run_bind h
      have hend : Run step ok serves u (.ret r) res t := by
        cases r with
        | ok a => exact hrest
        | error err =>
            dsimp only at hrest
            split at hrest <;> exact hrest
      obtain ⟨rfl, hpath⟩ := run_ret hend
      exact Or.inl ⟨s, u, .refl, hop, hpath⟩
  | succ left ih =>
      unfold RetryPolicy.doFrom at h
      obtain ⟨r, u, hop, hrest⟩ := run_bind h
      have hfirst : Run step ok serves u (.ret r) res t →
          Attempted step ok serves s op res t := by
        intro hret
        obtain ⟨rfl, hpath⟩ := run_ret hret
        exact ⟨s, u, .refl, hop, hpath⟩
      cases r with
      | ok a => exact Or.inl (hfirst hrest)
      | error err =>
          dsimp only at hrest
          split at hrest
          · exact Or.inl (hfirst hrest)
          · obtain ⟨d, v, hwait, hrest⟩ := run_bind hrest
            cases d with
            | some deadline => exact Or.inr ⟨deadline, (run_ret hrest).1⟩
            | none =>
                rcases ih hrest with hatt | hctx
                · exact Or.inl (hatt.of_path ((hop.path hserves).trans (hwait.path hserves)))
                · exact Or.inr hctx

omit hserves in
theorem CallEnds.cons {fn : M → Act M (Except Error α)} {m : M} {addrs : List M} {u : σ}
    {res : Except Error α} (hp : Path step ok s u) (h : CallEnds step ok serves u fn addrs t res) :
    CallEnds step ok serves s fn (m :: addrs) t res := by
  cases h with
  | attempt hm h => exact .attempt (List.mem_cons_of_mem _ hm) (h.of_path hp)
  | context deadline => exact .context deadline
  | undialed hm h => exact .undialed (List.mem_cons_of_mem _ hm) (h.of_path hp)

/-- If there is no master left the last error is returned. -/
theorem callMasterFrom_run {rp : RetryPolicy} {fn : M → Act M (Except Error α)} {addrs : List M}
    {lastErr : Option Error} {res : Except Error α}
    (h : Run step ok serves s (callMasterFrom rp fn addrs lastErr) res t) :
    CallEnds step ok serves s fn addrs t res ∨
      addrs = [] ∧ res = .error (lastErr.getD errNoMaster) := by
  induction addrs generalizing s lastErr with
  | nil => exact Or.inr ⟨rfl, (run_ret h).1⟩
  | cons addr addrs ih =>
      refine Or.inl ?_
      obtain ⟨d, u, hctx, h⟩ := run_bind h
      cases d with
      | some deadline =>
          obtain ⟨rfl, -⟩ := run_ret h
          exact .context deadline
      | none =>
          obtain ⟨r, v, hconn, h⟩ := run_bind h
          have hsu := hctx.path hserves
          have hsv := hsu.trans (hconn.path hserves)
          cases r with
          | error err =>
              rcases ih h with hrest | ⟨rfl, rfl⟩
              · exact hrest.cons hsv
              · exact .undialed (List.mem_cons_self ..) ⟨u, v, hsu, hconn, h.path hserves⟩
          | ok _ =>
              obtain ⟨r, x, hop, h⟩ := run_bind h
              have hsx := hsv.trans (hop.path hserves)
              -- whatever the attempts with this master end with may be the result
              have hthis : Path step ok x t → CallEnds step ok serves s fn (addr :: addrs) t r := by
                intro hpath
                rcases doFrom_run hserves hop with ⟨y, z, hy, hrun, hz⟩ | ⟨deadline, rfl⟩
                · exact .attempt (List.mem_cons_self ..) ⟨y, z, hsv.trans hy, hrun, hz.trans hpath⟩
                · exact .context deadline
              cases r with
              | ok a =>
                  obtain ⟨rfl, hpath⟩ := run_ret h
                  exact hthis hpath
              | error err =>
                  dsimp only at h
                  split at h
                  · obtain ⟨rfl, hpath⟩ := run_ret h
                    exact hthis hpath
                  · rcases ih h with hrest | ⟨rfl, rfl⟩
                    · exact hrest.cons hsx
                    · exact hthis (h.path hserves)

theorem callMaster_run {rp : RetryPolicy} {fn : M → Act M (Except Error α)} {addrs : List M}
    {res : Except Error α} (h : Run step ok serves s (callMaster rp addrs fn) res t) :
    CallEnds step ok serves s fn addrs t res ∨ addrs = [] ∧ res = .error errNoMaster :=
  callMasterFrom_run hserves h

omit hserves

/-! ### Runs of a call -/

/-- Nothing stands in the way of a call: the context has not ended, and addresses can be dialed. -/
structure Calm (serves : σ → (op : Op M) → Res op → σ → Prop) (s : σ) : Prop where
  ctxErr : serves s .ctxErr none s
  wait : ∀ delay, serves s (.wait delay) none s
  conn : ∀ addr, serves s (.conn addr) (.ok ()) s

variable {rp : RetryPolicy} {fn : M → Act M (Except Error α)} {addr : M} {addrs : List M}
  {lastErr : Option Error}

theorem run_doOp {op : Act M (Except Error α)} {res : Except Error α}
    (h : Run step ok serves s op res t) (hres : ∀ err, res = .error err → err.isTransient = false) :
    Run step ok serves s (rp.doOp op) res t := by
  unfold RetryPolicy.doOp RetryPolicy.doFrom
  refine h.bind ?_
  cases res with
  | ok a => exact .ret t _
  | error err =>
      simp only [hres err rfl]
      exact .ret t _

/-- Attempts that fail for a while, and leave things as they are, fail in the end. -/
theorem run_doFrom_error (hs : Calm serves s) {op : Act M (Except Error α)} {err : Error} {left : ℕ}
    {delay : Time} (h : Run step ok serves s op (.error err) s) (htransient : err.isTransient) :
    Run step ok serves s (rp.doFrom op left delay) (.error err) s := by
  induction left generalizing delay with
  | zero =>
      unfold RetryPolicy.doFrom
      refine h.bind ?_
      simp only [htransient]
      exact .ret s _
  | succ left ih =>
      unfold RetryPolicy.doFrom
      refine h.bind ?_
      simp only [htransient]
      exact Run.bind (.op (hs.wait delay)) ih

/-- A master that does not fail for a while decides the result. -/
theorem run_callMasterFrom (hs : Calm serves s) {res : Except Error α}
    (h : Run step ok serves s (fn addr) res t)
    (hres : ∀ err, res = .error err → err.isTransient = false) :
    Run step ok serves s (callMasterFrom rp fn (addr :: addrs) lastErr) res t := by
  refine Run.bind (.op hs.ctxErr) ?_
  refine Run.bind (.op (hs.conn addr)) ?_
  refine Run.bind (run_doOp h hres) ?_
  cases res with
  | ok a => exact .ret t _
  | error err =>
      simp only [hres err rfl]
      exact .ret t _

theorem run_callMaster (hs : Calm serves s) {res : Except Error α}
    (h : Run step ok serves s (fn addr) res t)
    (hres : ∀ err, res = .error err → err.isTransient = false) :
    Run step ok serves s (callMaster rp (addr :: addrs) fn) res t :=
  run_callMasterFrom hs h hres

/-- A master that fails for a while is left for the next one. -/
theorem run_callMaster_next (hs : Calm serves s) {err : Error} {res : Except Error α}
    (h : Run step ok serves s (fn addr) (.error err) s) (htransient : err.isTransient)
    (hnext : Run step ok serves s (callMasterFrom rp fn addrs (some err)) res t) :
    Run step ok serves s (callMaster rp (addr :: addrs) fn) res t := by
  refine Run.bind (.op hs.ctxErr) ?_
  refine Run.bind (.op (hs.conn addr)) ?_
  refine Run.bind (run_doFrom_error hs h htransient) ?_
  simp only [htransient]
  exact hnext

end Run

end VaultFS.Client
