import VaultFS.Client.Basic
import VaultFS.Master.Cluster.Sound

/-!
# Clients, masters and the network

How a cluster of masters serves the operations of a client, over a network of which only this is
known: how a request can fail without an answer, which addresses cannot be dialed, which masters
answer reads at a moment, and which bytes chunk servers return. Contexts can end at any time, and
the local file system can fail in any way.

Whatever goes on between two operations of the client, the requests of other clients included, is a
move of the cluster.
-/

namespace VaultFS.Client

open KeyValue Metadata Master Cluster Transition Interaction

structure Network (M σ : Type*) where
  /-- The statuses with which a request can fail without an answer. -/
  lost : Status → Prop
  undialable : M → Error → Prop
  /-- The masters that answer reads. -/
  answers : World M σ → M → Prop
  /-- The bytes that chunk servers return. -/
  replies : List UInt8 → Prop

namespace Network

variable {M σ : Type*} {α : Type} [Store σ Char FileInfo]

/-- A read ends with the answer of the master, or it is lost. -/
def Answered (N : Network M σ) (w : World M σ) (m : M) (answer : Server σ → Except Status α)
    (r : Except Status α) : Prop :=
  N.answers w m ∧ r = answer (w.hosts m).server ∨ ∃ st, N.lost st ∧ r = .error st

variable [DecidableEq M]

def Serves (N : Network M σ) (clock : M → ℕ → Time) (w : World M σ) :
    (op : Op M) → Res op → World M σ → Prop
  | .conn addr, r, w' => w' = w ∧ ∀ err, r = .error err → N.undialable addr err
  | .stat m path, r, w' => w' = w ∧ N.Answered w m (·.stat path) r
  | .openForRead m path, r, w' => w' = w ∧ N.Answered w m (·.openForRead path) r
  | .openForWrite m _ chunkIds, r, w' => w' = w ∧ N.Answered w m (·.openForWrite chunkIds) r
  -- the handler starts a call of `propose`
  | .request m cmd, r, w' =>
      r = .ok w.calls.length ∧ step clock w (.call m cmd) = some w' ∨
        w' = w ∧ ∃ st, N.lost st ∧ r = .error st
  | .response c path, r, w' => w' = w ∧
      ((∃ call res, w.calls[c]? = some call ∧ call.stage = .returned res ∧
          r = (w.hosts call.master).server.finalizeWrite path res) ∨
        ∃ st, N.lost st ∧ r = .error st)
  | .readChunk _ _, r, w' => w' = w ∧ ∀ data, r = .ok data → N.replies data
  | _, _, w' => w' = w

variable {N : Network M σ} {clock : M → ℕ → Time} {ok : World M σ → Event M → Prop}
  {w w' : World M σ}

/-- An operation is a move of the cluster or none. -/
theorem Serves.path {op : Op M} {r : Res op} (h : N.Serves clock w op r w')
    (hcall : ∀ m cmd, op = .request m cmd → ok w (.call m cmd)) : Path (step clock) ok w w' := by
  have hstay : w' = w → Path (step clock) ok w w' := by
    rintro rfl
    exact .refl
  cases op with
  | request m cmd =>
      rcases h with ⟨-, hstep⟩ | ⟨heq, -⟩
      · exact .single (hcall m cmd rfl) hstep
      · exact hstay heq
  | conn | stat | openForRead | openForWrite | response | readChunk => exact hstay h.1
  | ctxErr | wait | chunkClient | writeChunk | create | write => exact hstay h

/-- What a read ends with that no master has answered. -/
inductive Fails (N : Network M σ) (addrs : List M) : Error → Prop where
  | lost {st : Status} (h : N.lost st) : Fails N addrs (.status st)
  | context (deadline : Bool) : Fails N addrs (.context deadline)
  | undialable {m : M} {err : Error} (hm : m ∈ addrs) (h : N.undialable m err) : Fails N addrs err

/-- A read of a client ends with the answer of one of its masters, given in between, or it fails
without one. -/
theorem callMaster_answered {serves : World M σ → (op : Op M) → Res op → World M σ → Prop}
    (hpath : ∀ w op r w', serves w op r w' → Path (step clock) ok w w')
    (hserves : ∀ w op r w', serves w op r w' → N.Serves clock w op r w') {rp : RetryPolicy}
    {addrs : List M} (haddrs : addrs ≠ []) (answer : Server σ → Except Status α)
    {p : M → Act M (Except Status α)}
    (hp : ∀ m u r u', Run (step clock) ok serves u (p m) r u' →
      ∃ v, Path (step clock) ok u v ∧ Path (step clock) ok v u' ∧ N.Answered v m answer r)
    {res : Except Error α}
    (h : Run (step clock) ok serves w (callMaster rp addrs fun m => rpc (p m)) res w') :
    (∃ m ∈ addrs, ∃ v, Path (step clock) ok w v ∧ Path (step clock) ok v w' ∧ N.answers v m ∧
      res = (answer (v.hosts m).server).mapError .status) ∨
      ∃ err, res = .error err ∧ N.Fails addrs err := by
  rcases callMaster_run hpath h with hends | ⟨hnil, -⟩
  · cases hends with
    | @attempt m res hm hatt =>
        obtain ⟨u, u', hu, hrpc, hu'⟩ := hatt
        obtain ⟨r, rfl, v, v', hv, hrun, hv'⟩ := run_rpc hrpc
        obtain ⟨x, hvx, hxv', hanswered⟩ := hp m v r v' hrun
        rcases hanswered with ⟨hm', rfl⟩ | ⟨st, hst, rfl⟩
        · exact Or.inl ⟨m, hm, x, (hu.trans hv).trans hvx, (hxv'.trans hv').trans hu', hm', rfl⟩
        · exact Or.inr ⟨_, rfl, .lost hst⟩
    | context deadline => exact Or.inr ⟨_, rfl, .context deadline⟩
    | @undialed m err hm hatt =>
        obtain ⟨u, u', -, hrun, -⟩ := hatt
        obtain ⟨v, v', -, hconn, -⟩ := run_op hrun
        exact Or.inr ⟨err, rfl, .undialable hm ((hserves _ _ _ _ hconn).2 err rfl)⟩
  · exact absurd hnil haddrs

theorem calm (w : World M σ) : Calm (N.Serves clock) w where
  ctxErr := rfl
  wait _ := rfl
  conn _ := ⟨rfl, nofun⟩

end Network

end VaultFS.Client
