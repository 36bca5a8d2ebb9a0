import Mathlib.Algebra.BigOperators.Group.Finset.Basic
import Mathlib.Algebra.Group.Action.Defs
import Mathlib.Algebra.Order.BigOperators.Group.Finset
import Mathlib.Data.Fin.VecNotation
import Mathlib.Data.Fintype.Card
import Mathlib.Data.List.FinRange
import Mathlib.Order.Interval.Finset.Nat
import Mathlib.Tactic.FinCases
import VaultFS.Transition.Basic

/-!
# The Lamport clock

`internal/clock/lamport.go`: a counter that `Tick` increments by one atomic addition, and `Update`
by a loop that loads the counter and tries to swap it for a larger value. Calls run at the same time
and their atomic operations come in any order.

A call takes effect at the addition or at the swap that succeeds, and what it writes there is one
more than the counter and the received value (`toNat_next`). As long as this does not wrap around,
the counter goes up with each call, and so do the returned values. A swap fails only when another
call has taken effect since the load, so that all calls return (`completes`).
-/

namespace VaultFS.Clock.LamportClock

open Transition

inductive Call where
  | tick
  | update (received : UInt64)
  deriving DecidableEq

/-- The value that the clock is to exceed; that of `Tick` is the least one. -/
def Call.received : Call → UInt64
  | .tick => 0
  | .update received => received

/-- The new value in a turn of the loop of `Update`. -/
def next (received cur : UInt64) : UInt64 := if received ≥ cur then received + 1 else cur + 1

/-- Where a call is. -/
inductive Phase where
  | idle
  /-- Before the addition of `Tick`, or at the beginning of the loop of `Update`. -/
  | ready
  | loaded (cur : UInt64)
  /-- The call has taken effect. -/
  | stored (value : UInt64)
  | returned (value : UInt64)
  deriving DecidableEq

def Phase.value : Phase → Option UInt64
  | .stored value => some value
  | .returned value => some value
  | _ => none

structure World (n : ℕ) where
  counter : UInt64
  phase : Fin n → Phase

inductive Event (n : ℕ) where
  | call (i : Fin n)
  /-- The next atomic operation of a call. -/
  | operate (i : Fin n)
  | ret (i : Fin n)
  deriving DecidableEq

variable {n : ℕ}

namespace World

def init : World n := ⟨0, fun _ => .idle⟩

def move (w : World n) (i : Fin n) (p : Phase) : World n :=
  { w with phase := Function.update w.phase i p }

/-- The counter gets a new value, which the call is to return. -/
def store (w : World n) (i : Fin n) (value : UInt64) : World n :=
  ⟨value, Function.update w.phase i (.stored value)⟩

def now (w : World n) : UInt64 := w.counter

/-- What the calls return that have taken effect. -/
def value (w : World n) (i : Fin n) : Option UInt64 := (w.phase i).value

end World

section Calls

variable (calls : Fin n → Call)

def step (w : World n) : Event n → Option (World n)
  | .call i => if w.phase i = .idle then some (w.move i .ready) else none
  | .operate i =>
      match calls i, w.phase i with
      | .tick, .ready => some (w.store i (w.counter + 1))
      | .update _, .ready => some (w.move i (.loaded w.counter))
      | .update received, .loaded cur =>
          if w.counter = cur then some (w.store i (next received cur)) else some (w.move i .ready)
      | _, _ => none
  | .ret i =>
      match w.phase i with
      | .stored value => some (w.move i (.returned value))
      | _ => none

/-- What a step can do. -/
inductive Stepped (w : World n) : Event n → World n → Prop where
  | call {i : Fin n} (h : w.phase i = .idle) : Stepped w (.call i) (w.move i .ready)
  | load {i : Fin n} (h : w.phase i = .ready) (hcall : calls i ≠ .tick) :
      Stepped w (.operate i) (w.move i (.loaded w.counter))
  | retry {i : Fin n} {cur : UInt64} (h : w.phase i = .loaded cur) (hne : cur ≠ w.counter) :
      Stepped w (.operate i) (w.move i .ready)
  | store {i : Fin n} (h : w.phase i = .ready ∨ w.phase i = .loaded w.counter) :
      Stepped w (.operate i) (w.store i (next (calls i).received w.counter))
  | ret {i : Fin n} {value : UInt64} (h : w.phase i = .stored value) :
      Stepped w (.ret i) (w.move i (.returned value))

variable {calls} {w w' : World n} {ev : Event n} {i j : Fin n}

theorem next_zero (cur : UInt64) : next 0 cur = cur + 1 := by
  unfold next
  split
  · rename_i hle
    rw [UInt64.le_zero_iff.mp hle]
  · rfl

theorem stepped (h : step calls w ev = some w') : Stepped calls w ev w' := by
  cases ev with
  | call i =>
      simp only [step] at h
      split at h
      · rename_i hphase
        obtain rfl := Option.some.inj h
        exact .call hphase
      · cases h
  | operate i =>
      simp only [step] at h
      split at h
      · rename_i hcall hphase
        obtain rfl := Option.some.inj h
        have hstore : Stepped calls w _ _ := .store (i := i) (.inl hphase)
        rwa [hcall, Call.received, next_zero] at hstore
      · rename_i received hcall hphase
        obtain rfl := Option.some.inj h
        exact .load hphase (by simp [hcall])
      · rename_i received cur hcall hphase
        split at h
        · rename_i hcur
          obtain rfl := Option.some.inj h
          subst hcur
          have hstore : Stepped calls w _ _ := .store (i := i) (.inr hphase)
          rwa [hcall] at hstore
        · rename_i hcur
          obtain rfl := Option.some.inj h
          exact .retry hphase (Ne.symm hcur)
      · cases h
  | ret i =>
      simp only [step] at h
      split at h
      · rename_i value hphase
        obtain rfl := Option.some.inj h
        exact .ret hphase
      · cases h

theorem toNat_next {received cur : UInt64}
    (h : max received.toNat cur.toNat + 1 < 2 ^ 64) :
    (next received cur).toNat = max received.toNat cur.toNat + 1 := by
  have hsucc : ∀ {x : UInt64}, x.toNat + 1 < 2 ^ 64 → (x + 1).toNat = x.toNat + 1 := by
    intro x hx
    rw [UInt64.toNat_add, UInt64.toNat_one, Nat.mod_eq_of_lt hx]
  unfold next
  split
  · rename_i hle
    have hle' := UInt64.le_iff_toNat_le.mp hle
    rw [max_eq_left hle'] at h ⊢
    exact hsucc h
  · rename_i hlt
    have hlt' := UInt64.lt_iff_toNat_lt.mp (UInt64.not_le.mp hlt)
    rw [max_eq_right hlt'.le] at h ⊢
    exact hsucc h

/-! ### Phases -/

theorem phase_move (w : World n) (i j : Fin n) (p : Phase) :
    (w.move i p).phase j = if j = i then p else w.phase j := by
  simp [World.move, Function.update_apply]

theorem phase_store (w : World n) (i j : Fin n) (v : UInt64) :
    (w.store i v).phase j = if j = i then .stored v else w.phase j := by
  simp [World.store, Function.update_apply]

theorem value_move {p : Phase} (h : p.value = w.value i) : (w.move i p).value = w.value := by
  funext j
  rw [World.value, phase_move]
  split
  · rename_i hj
    rw [hj, h]
  · rfl

theorem value_store (w : World n) (i j : Fin n) (v : UInt64) :
    (w.store i v).value j = if j = i then some v else w.value j := by
  rw [World.value, phase_store]
  split <;> rfl

theorem value_of_returned {v : UInt64} (h : w.phase i = .returned v) : w.value i = some v := by
  rw [World.value, h]
  rfl

/-- A call that has begun does not begin again, and one that has returned does nothing more. -/
theorem phase_step (hs : step calls w ev = some w') (j : Fin n) :
    (w.phase j ≠ .idle → w'.phase j ≠ .idle) ∧
      ∀ v, w.phase j = .returned v → w'.phase j = .returned v := by
  cases stepped hs with
  | call h | load h | retry h | ret h =>
      rw [phase_move]
      split
      · rename_i hj
        subst hj
        simp [h]
      · exact ⟨id, fun _ => id⟩
  | store h =>
      rw [phase_store]
      split
      · rename_i hj
        subst hj
        rcases h with h | h <;> simp [h]
      · exact ⟨id, fun _ => id⟩

section Events

variable {u : World n} {es : List (Event n)}

theorem idle_of_call (h : exec (step calls) u es = some w) (hcall : .call j ∈ es) :
    u.phase j = .idle := by
  obtain ⟨l, l', rfl⟩ := List.append_of_mem hcall
  rw [exec_append] at h
  obtain ⟨t, hl, hrest⟩ := Option.bind_eq_some_iff.mp h
  obtain ⟨t', hstep, -⟩ := Option.bind_eq_some_iff.mp hrest
  by_contra hbegun
  have hstill := (Path.of_events hl).invariant (I := fun t => t.phase j ≠ .idle) hbegun
    fun _ _ _ ht _ hs => (phase_step hs j).1 ht
  cases stepped hstep with
  | call hidle => exact hstill hidle

theorem returned_of_ret (h : exec (step calls) u es = some w) (hret : .ret i ∈ es) :
    ∃ v, w.phase i = .returned v := by
  obtain ⟨l, l', rfl⟩ := List.append_of_mem hret
  rw [exec_append] at h
  obtain ⟨t, hl, hrest⟩ := Option.bind_eq_some_iff.mp h
  obtain ⟨t', hstep, hl'⟩ := Option.bind_eq_some_iff.mp hrest
  cases stepped hstep with
  | @ret _ v =>
      have hreturned : (t.move i (.returned v)).phase i = .returned v := by simp [phase_move]
      exact ⟨v, (Path.of_events hl').invariant hreturned
        fun _ _ _ ht _ hs => (phase_step hs i).2 v ht⟩

end Events

/-! ### The values go up -/

/-- The calls that have taken effect. -/
def World.effective (w : World n) : Finset (Fin n) := Finset.univ.filter fun i => (w.value i).isSome

/-- The counter has not wrapped around: no call has got a value above it, or the same value as
another one. -/
structure Sound (calls : Fin n → Call) (w : World n) : Prop where
  bounded : w.counter.toNat + n < 2 ^ 64 + w.effective.card
  le : ∀ i v, w.value i = some v → v ≤ w.counter
  received : ∀ i v, w.value i = some v → (calls i).received < v
  distinct : ∀ i j v, w.value i = some v → w.value j = some v → i = j

/-- No call can wrap the counter around. -/
def Fits (calls : Fin n → Call) : Prop := ∀ i, (calls i).received.toNat + n < 2 ^ 64

theorem Sound.init (hn : n < 2 ^ 64) : Sound calls .init where
  bounded := by simpa [World.init] using hn.trans_le (Nat.le_add_right _ _)
  le i v h := by cases h
  received i v h := by cases h
  distinct i j v h := by cases h

theorem Sound.move (h : Sound calls w) {p : Phase} (hp : p.value = w.value i) :
    Sound calls (w.move i p) := by
  have hvalue := value_move hp
  have heffective : (w.move i p).effective = w.effective := by
    simp only [World.effective, hvalue]
  refine ⟨heffective ▸ h.bounded, ?_, ?_, ?_⟩
  · rw [hvalue]
    exact h.le
  · rw [hvalue]
    exact h.received
  · rw [hvalue]
    exact h.distinct

/-- The call that takes effect is counted now. -/
theorem card_store (hi : w.value i = none) (v : UInt64) :
    (w.store i v).effective.card = w.effective.card + 1 ∧ w.effective.card < n := by
  have hnot : i ∉ w.effective := by simp [World.effective, hi]
  have hinsert : (w.store i v).effective = insert i w.effective := by
    ext j
    simp only [World.effective, Finset.mem_filter, Finset.mem_univ, true_and, value_store,
      Finset.mem_insert]
    by_cases hj : j = i
    · simp [hj]
    · simp [hj]
  have hcard := Finset.card_insert_of_notMem hnot
  have hle := Finset.card_le_univ (insert i w.effective)
  rw [Fintype.card_fin] at hle
  exact ⟨hinsert ▸ hcard, by omega⟩

/-- The new value, where it fits. -/
theorem Sound.toNat_next (h : Sound calls w) (hfits : Fits calls) (hi : w.value i = none) :
    (next (calls i).received w.counter).toNat =
      max (calls i).received.toNat w.counter.toNat + 1 := by
  apply LamportClock.toNat_next
  have hbounded := h.bounded
  have hreceived := hfits i
  have hcard := (card_store hi 0).2
  omega

theorem Sound.store (h : Sound calls w) (hfits : Fits calls) (hi : w.value i = none) :
    Sound calls (w.store i (next (calls i).received w.counter)) ∧
      w.counter < next (calls i).received w.counter := by
  have hnext := h.toNat_next hfits hi
  have hlt : w.counter < next (calls i).received w.counter := by
    rw [UInt64.lt_iff_toNat_lt, hnext]
    omega
  have hvalue := value_store w i
  refine ⟨⟨?_, ?_, ?_, ?_⟩, hlt⟩
  · have hbounded := h.bounded
    have hreceived := hfits i
    have hcounter : (w.store i (next (calls i).received w.counter)).counter.toNat =
        max (calls i).received.toNat w.counter.toNat + 1 := hnext
    rw [(card_store hi _).1, hcounter]
    omega
  · intro j v hj
    rw [hvalue] at hj
    split at hj
    · rw [← Option.some.inj hj]
      exact UInt64.le_refl _
    · exact UInt64.le_of_lt (UInt64.lt_of_le_of_lt (h.le j v hj) hlt)
  · intro j v hj
    rw [hvalue] at hj
    split at hj
    · rename_i heq
      rw [← Option.some.inj hj, heq, UInt64.lt_iff_toNat_lt, hnext]
      omega
    · exact h.received j v hj
  · -- The new value is above the counter, and all others are not.
    have hfresh : ∀ j v, w.value j = some v → v ≠ next (calls i).received w.counter := by
      rintro j v hj rfl
      exact UInt64.not_le.mpr hlt (h.le j _ hj)
    intro j k v hj hk
    rw [hvalue] at hj hk
    split at hj
    · rename_i hji
      split at hk
      · rename_i hki
        rw [hji, hki]
      · exact absurd (Option.some.inj hj).symm (hfresh k v hk)
    · split at hk
      · exact absurd (Option.some.inj hk).symm (hfresh j v hj)
      · exact h.distinct j k v hj hk

/-- What a step does to the values: nothing, or one call gets a new one. -/
theorem step_cases (hs : step calls w ev = some w') :
    (∃ i p, p.value = w.value i ∧ w' = w.move i p) ∨
      ∃ i, w.value i = none ∧ w' = w.store i (next (calls i).received w.counter) := by
  cases stepped hs with
  | @call i h => exact .inl ⟨i, _, by simp [World.value, h, Phase.value], rfl⟩
  | @load i h => exact .inl ⟨i, _, by simp [World.value, h, Phase.value], rfl⟩
  | @retry i cur h => exact .inl ⟨i, _, by simp [World.value, h, Phase.value], rfl⟩
  | @ret i v h => exact .inl ⟨i, _, by simp [World.value, h, Phase.value], rfl⟩
  | @store i h =>
      refine .inr ⟨i, ?_, rfl⟩
      rcases h with h | h <;> simp [World.value, h, Phase.value]

theorem Sound.step (h : Sound calls w) (hfits : Fits calls)
    (hs : LamportClock.step calls w ev = some w') : Sound calls w' := by
  rcases step_cases hs with ⟨i, p, hp, rfl⟩ | ⟨i, hi, rfl⟩
  · exact h.move hp
  · exact (h.store hfits hi).1

theorem Sound.run (hn : n < 2 ^ 64) (hfits : Fits calls)
    (h : Path (LamportClock.step calls) (fun _ _ => True) .init w) : Sound calls w :=
  h.invariant (.init hn) fun _ _ _ hsound _ hs => hsound.step hfits hs

/-- The values since then are above what the counter was. -/
structure Since (calls : Fin n → Call) (u w : World n) : Prop where
  sound : Sound calls w
  le : u.now ≤ w.now
  later : ∀ j v, u.value j = none → w.value j = some v → u.now < v

theorem Since.refl (h : Sound calls w) : Since calls w w :=
  ⟨h, UInt64.le_refl _, fun j v hnone hsome => by rw [hnone] at hsome; cases hsome⟩

theorem Since.step {u : World n} (h : Since calls u w) (hfits : Fits calls)
    (hs : LamportClock.step calls w ev = some w') : Since calls u w' := by
  refine ⟨h.sound.step hfits hs, ?_, ?_⟩
  · rcases step_cases hs with ⟨i, p, -, rfl⟩ | ⟨i, hi, rfl⟩
    · exact h.le
    · exact UInt64.le_trans h.le (UInt64.le_of_lt (h.sound.store hfits hi).2)
  · intro j v hnone hsome
    rcases step_cases hs with ⟨i, p, hp, rfl⟩ | ⟨i, hi, rfl⟩
    · rw [value_move hp] at hsome
      exact h.later j v hnone hsome
    · rw [value_store] at hsome
      split at hsome
      · rw [← Option.some.inj hsome]
        exact UInt64.lt_of_le_of_lt h.le (h.sound.store hfits hi).2
      · exact h.later j v hnone hsome

theorem Since.run {u : World n} (hu : Sound calls u) (hfits : Fits calls)
    (h : Path (LamportClock.step calls) (fun _ _ => True) u w) : Since calls u w :=
  h.invariant (.refl hu) fun _ _ _ hsince _ hs => hsince.step hfits hs

/-- What is promised for a run of the calls: the returned values are distinct, those of calls that
begin after another one has returned are larger, and `Update` exceeds what it was given. -/
structure Monotone (calls : Fin n → Call) (es : List (Event n)) (w : World n) : Prop where
  distinct : ∀ i j v, w.phase i = .returned v → w.phase j = .returned v → i = j
  ordered : ∀ before after i j v v', es = before ++ after → .ret i ∈ before → .call j ∈ after →
    w.phase i = .returned v → w.phase j = .returned v' → v < v'
  exceeds : ∀ i received v, calls i = .update received → w.phase i = .returned v → received < v

theorem monotone_of_fits (hn : n < 2 ^ 64) (hfits : Fits calls) {es : List (Event n)}
    (h : exec (step calls) .init es = some w) : Monotone calls es w := by
  have hsound := Sound.run hn hfits (Path.of_events h)
  refine ⟨?_, ?_, ?_⟩
  · intro i j v hi hj
    exact hsound.distinct i j v (value_of_returned hi) (value_of_returned hj)
  · rintro before after i j v v' rfl hret hcall hi hj
    rw [exec_append] at h
    obtain ⟨u, hbefore, hafter⟩ := Option.bind_eq_some_iff.mp h
    have husound := Sound.run hn hfits (Path.of_events hbefore)
    have hpath := Path.of_events hafter
    -- The first call has its value in the state between, and the second one has not begun.
    obtain ⟨v₀, hv₀⟩ := returned_of_ret hbefore hret
    have hsame : w.phase i = .returned v₀ :=
      hpath.invariant hv₀ fun _ _ _ ht _ hs => (phase_step hs i).2 v₀ ht
    obtain rfl : v₀ = v := Phase.returned.inj (hsame.symm.trans hi)
    have hidle : u.value j = none := by
      rw [World.value, idle_of_call hafter hcall]
      rfl
    have hle : v₀ ≤ u.now := husound.le i v₀ (value_of_returned hv₀)
    have hlt := (Since.run husound hfits hpath).later j v' hidle (value_of_returned hj)
    exact UInt64.lt_of_le_of_lt hle hlt
  · intro i received v hcall hi
    have hlt := hsound.received i v (value_of_returned hi)
    rwa [hcall] at hlt

/-! ### All calls return -/

/-- The steps a call may still take; a load that is out of date costs a turn of the loop. -/
def cost (n : ℕ) (counter : UInt64) : Phase → ℕ
  | .idle => 2 * n + 5
  | .ready => 2 * n + 4
  | .loaded cur => if cur = counter then 2 * n + 3 else 2 * n + 5
  | .stored _ => 1
  | .returned _ => 0

def todo (w : World n) : ℕ := ∑ i, cost n w.counter (w.phase i)

theorem todo_move {p : Phase} (h : cost n w.counter p < cost n w.counter (w.phase i)) :
    todo (w.move i p) < todo w := by
  have hcost : ∀ j, cost n w.counter ((w.move i p).phase j) ≤ cost n w.counter (w.phase j) := by
    intro j
    rw [phase_move]
    split
    · rename_i hj
      exact hj ▸ h.le
    · exact le_rfl
  refine Finset.sum_lt_sum (fun j _ => hcost j) ⟨i, Finset.mem_univ i, ?_⟩
  rw [phase_move, if_pos rfl]
  exact h

/-- The other calls may have to load again. -/
theorem todo_store (h : w.phase i = .ready ∨ w.phase i = .loaded w.counter) (v : UInt64) :
    todo (w.store i v) < todo w := by
  have hself : 2 * n + 3 ≤ cost n w.counter (w.phase i) := by
    rcases h with h | h <;> simp [h, cost]
  have hothers : ∀ j ∈ Finset.univ.erase i,
      cost n (w.store i v).counter ((w.store i v).phase j) ≤ cost n w.counter (w.phase j) + 2 := by
    intro j hj
    rw [phase_store, if_neg (Finset.ne_of_mem_erase hj)]
    cases w.phase j with
    | loaded cur =>
        simp only [cost]
        split <;> split <;> omega
    | _ => simp [cost]
  have hsum := Finset.sum_le_sum hothers
  have hcard : (Finset.univ.erase i).card = n - 1 := by
    rw [Finset.card_erase_of_mem (Finset.mem_univ i), Finset.card_univ, Fintype.card_fin]
  rw [Finset.sum_add_distrib, Finset.sum_const, hcard, smul_eq_mul] at hsum
  have hstored : cost n (w.store i v).counter ((w.store i v).phase i) = 1 := by
    rw [phase_store, if_pos rfl]
    rfl
  have hpos : 0 < n := i.pos
  have hnew := Finset.add_sum_erase Finset.univ
    (fun j => cost n (w.store i v).counter ((w.store i v).phase j)) (Finset.mem_univ i)
  have hold := Finset.add_sum_erase Finset.univ (fun j => cost n w.counter (w.phase j))
    (Finset.mem_univ i)
  simp only [hstored] at hnew
  rw [todo, todo, ← hnew, ← hold]
  omega

theorem todo_step (hs : step calls w ev = some w') : todo w' < todo w := by
  cases stepped hs with
  | call h => exact todo_move (by simp [h, cost])
  | load h => exact todo_move (by simp [h, cost])
  | retry h hne => exact todo_move (by simp [h, hne, cost])
  | ret h => exact todo_move (by simp [h, cost])
  | store h => exact todo_store h _

/-- `Tick` has no load. -/
theorem ne_tick_of_loaded {es : List (Event n)} (h : exec (step calls) .init es = some w) :
    ∀ i cur, w.phase i = .loaded cur → calls i ≠ .tick := by
  refine (Path.of_events h).invariant
    (I := fun t => ∀ i cur, t.phase i = .loaded cur → calls i ≠ .tick)
    (fun i cur hcur => by cases hcur) ?_
  intro t ev t' ht _ hs j cur hj
  cases stepped hs with
  | @load i hphase hcall =>
      rw [phase_move] at hj
      split at hj
      · rename_i heq
        rwa [heq]
      · exact ht j cur hj
  | call | retry | ret =>
      rw [phase_move] at hj
      split at hj
      · cases hj
      · exact ht j cur hj
  | store =>
      rw [phase_store] at hj
      split at hj
      · cases hj
      · exact ht j cur hj

/-- A call that has not returned can take a step. -/
theorem exists_step (hloaded : ∀ cur, w.phase i = .loaded cur → calls i ≠ .tick)
    (h : ∀ v, w.phase i ≠ .returned v) : ∃ ev, (step calls w ev).isSome := by
  cases hphase : w.phase i with
  | idle => exact ⟨.call i, by simp [step, hphase]⟩
  | ready =>
      refine ⟨.operate i, ?_⟩
      cases hcall : calls i <;> simp [step, hphase, hcall]
  | loaded cur =>
      refine ⟨.operate i, ?_⟩
      cases hcall : calls i with
      | tick => exact absurd hcall (hloaded cur hphase)
      | update received =>
          simp only [step, hphase, hcall]
          split <;> rfl
  | stored v => exact ⟨.ret i, by simp [step, hphase]⟩
  | returned v => exact absurd hphase (h v)

/-- Runs are bounded, and one that cannot be continued has brought all calls to their end. -/
def Completes (calls : Fin n → Call) : Prop :=
  ∀ es w, exec (step calls) .init es = some w →
    es.length ≤ n * (2 * n + 5) ∧
      ((∀ ev, step calls w ev = none) → ∀ i, ∃ v, w.phase i = .returned v)

theorem completes (calls : Fin n → Call) : Completes calls := by
  intro es w h
  refine ⟨?_, ?_⟩
  · have hlength := length_add_le (fun _ _ _ hs => todo_step hs) h
    have hinit : todo (World.init : World n) = n * (2 * n + 5) := by
      simp [todo, World.init, cost]
    omega
  · intro hstuck i
    by_contra hnot
    obtain ⟨ev, hev⟩ := exists_step (ne_tick_of_loaded h i) (not_exists.mp hnot)
    rw [hstuck ev] at hev
    cases hev

/-! ### One call after another -/

/-- A call that nothing interrupts. -/
def solo (calls : Fin n → Call) (i : Fin n) : List (Event n) :=
  match calls i with
  | .tick => [.call i, .operate i, .ret i]
  | .update _ => [.call i, .operate i, .operate i, .ret i]

/-- The call returns what it has stored, and the others stay where they are. -/
def World.finish (w : World n) (i : Fin n) (v : UInt64) : World n :=
  ⟨v, Function.update w.phase i (.returned v)⟩

theorem phase_finish (w : World n) (i j : Fin n) (v : UInt64) :
    (w.finish i v).phase j = if j = i then .returned v else w.phase j := by
  simp [World.finish, Function.update_apply]

theorem exec_solo (calls : Fin n → Call) (hidle : w.phase i = .idle) :
    exec (step calls) w (solo calls i) =
      some (w.finish i (next (calls i).received w.counter)) := by
  cases hcall : calls i with
  | tick =>
      simp [solo, hcall, exec, step, hidle, World.move, World.store, World.finish, Call.received,
        next_zero]
  | update received =>
      simp [solo, hcall, exec, step, hidle, World.move, World.store, World.finish, Call.received]

theorem exec_serial (calls : Fin n → Call) (is : List (Fin n)) (hnodup : is.Nodup)
    (hidle : ∀ i ∈ is, w.phase i = .idle) :
    ∃ w', exec (step calls) w (is.flatMap (solo calls)) = some w' ∧
      ∀ i ∈ is, ∃ v, w'.phase i = .returned v := by
  induction is generalizing w with
  | nil => exact ⟨w, rfl, by simp⟩
  | cons i is ih =>
      obtain ⟨hi, hnodup'⟩ := List.nodup_cons.mp hnodup
      have hsolo := exec_solo calls (hidle i List.mem_cons_self)
      obtain ⟨w', hrest, hreturned⟩ := ih hnodup' (w := w.finish i _) fun j hj => by
        rw [phase_finish, if_neg (by rintro rfl; exact hi hj)]
        exact hidle j (List.mem_cons_of_mem i hj)
      have hexec : exec (step calls) w ((i :: is).flatMap (solo calls)) = some w' := by
        rw [List.flatMap_cons, exec_append, hsolo]
        exact hrest
      refine ⟨w', hexec, ?_⟩
      intro j hj
      rcases List.mem_cons.mp hj with rfl | hj
      · exact ⟨_, (Path.of_events hrest).invariant (by rw [phase_finish, if_pos rfl])
          fun _ _ _ ht _ hs => (phase_step hs j).2 _ ht⟩
      · exact hreturned j hj

theorem ret_mem_solo (calls : Fin n → Call) (i : Fin n) : .ret i ∈ solo calls i := by
  unfold solo
  split <;> simp

theorem call_mem_solo (calls : Fin n → Call) (i : Fin n) : .call i ∈ solo calls i := by
  unfold solo
  split <;> simp

/-- The call comes first, and then all others: `n` values above the received one. -/
theorem add_lt_of_monotone {received : UInt64} (hcall : calls i = .update received)
    (h : ∀ es w, exec (step calls) .init es = some w → Monotone calls es w) :
    received.toNat + n < 2 ^ 64 := by
  set others := (List.finRange n).erase i with hothers
  have hnodup : (i :: others).Nodup :=
    List.nodup_cons.mpr ⟨(List.nodup_finRange n).not_mem_erase, (List.nodup_finRange n).erase i⟩
  have hmem : ∀ j, j = i ∨ j ∈ others := fun j => by
    by_cases hj : j = i
    · exact .inl hj
    · exact .inr ((List.mem_erase_of_ne hj).mpr (List.mem_finRange j))
  obtain ⟨w, hexec, hreturned⟩ := exec_serial calls (w := .init) (i :: others) hnodup
    fun _ _ => rfl
  obtain ⟨-, hordered, hexceeds⟩ := h _ w hexec
  choose value hvalue using fun j => hreturned j (List.mem_cons.mpr (hmem j))
  have hfirst := hexceeds i received (value i) hcall (hvalue i)
  have habove : ∀ j, received < value j := by
    intro j
    rcases hmem j with rfl | hj
    · exact hfirst
    · refine UInt64.lt_trans hfirst
        (hordered (solo calls i) (others.flatMap (solo calls)) i j _ _ (List.flatMap_cons ..)
          (ret_mem_solo calls i) ?_ (hvalue i) (hvalue j))
      exact List.mem_flatMap.mpr ⟨j, hj, call_mem_solo calls j⟩
  have hinjective : Function.Injective fun j => (value j).toNat := fun j k hjk =>
    (h _ w hexec).distinct j k (value j) (hvalue j) (UInt64.toNat_inj.mp hjk ▸ hvalue k)
  have hcard := Finset.card_le_card_of_injOn (s := Finset.univ)
    (t := Finset.Ioo received.toNat (2 ^ 64)) (fun j => (value j).toNat)
    (fun j _ => Finset.mem_coe.mpr (Finset.mem_Ioo.mpr
      ⟨UInt64.lt_iff_toNat_lt.mp (habove j), (value j).toNat_lt⟩)) hinjective.injOn
  rw [Finset.card_univ, Fintype.card_fin, Nat.card_Ioo] at hcard
  have hpos : 0 < n := i.pos
  omega

/-- The clock is monotone under every interleaving if and only if no received value is so large
that the calls can wrap the counter around. -/
theorem monotone_iff_received_small (hn : n < 2 ^ 64) (calls : Fin n → Call) :
    Completes calls ∧
      ((∀ es w, exec (step calls) .init es = some w → Monotone calls es w) ↔
        ∀ i received, calls i = .update received → received.toNat + n < 2 ^ 64) := by
  refine ⟨completes calls, ?_, ?_⟩
  · intro h i received hcall
    exact add_lt_of_monotone hcall h
  · intro hsmall es w h
    refine monotone_of_fits hn (fun i => ?_) h
    cases hcall : calls i with
    | tick => simpa [Call.received] using hn
    | update received => exact hsmall i received hcall

/-- `Tick` takes effect between the load and the swap of `Update`, which has to load again. -/
def racing : Fin 2 → Call := ![.update 5, .tick]

def race : List (Event 2) :=
  [.call 0, .call 1, .operate 0, .operate 1, .operate 0, .ret 1, .operate 0, .operate 0, .ret 0]

theorem monotone_race :
    (final (step racing) .init race).phase 0 = .returned 6 ∧
      (final (step racing) .init race).phase 1 = .returned 1 ∧
      Monotone racing race (final (step racing) .init race) := by
  refine ⟨by decide, by decide, ?_⟩
  have hexec : exec (step racing) .init race = some (final (step racing) .init race) := rfl
  refine ((monotone_iff_received_small (by decide) racing).2.mpr ?_) _ _ hexec
  intro i received hcall
  fin_cases i
  · obtain rfl := Call.update.inj hcall
    decide
  · cases hcall

def largest : Fin 1 → Call := ![.update 18446744073709551615]

/-- `Update` of the largest value returns zero. -/
theorem not_monotone_of_largest :
    (final (step largest) .init (solo largest 0)).phase 0 = .returned 0 ∧
      ¬ Monotone largest (solo largest 0) (final (step largest) .init (solo largest 0)) := by
  refine ⟨by decide, fun h => ?_⟩
  have hlt := h.exceeds 0 18446744073709551615 0 rfl (by decide)
  exact absurd hlt (by decide)

end Calls

end VaultFS.Clock.LamportClock
