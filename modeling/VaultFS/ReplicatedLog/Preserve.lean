import VaultFS.ReplicatedLog.Invariant

/-!
# Every step keeps the invariant

One theorem for each kind of step, and `Inv.step` for all of them; the invariant
thus holds in every reachable state. `Inv.le` says that a step only adds to the
history.
-/

namespace ReplicatedLog

variable {ν ε : Type*} [HasTerm ε] {𝒬 : Quorums ν} {a b : State ν ε}

theorem Inv.init (𝒬 : Quorums ν) : Inv 𝒬 (State.init : State ν ε) where
  lead_pos U L h := by simp [State.init] at h
  lead_term_le U L h := by simp [State.init] at h
  lead_sorted U L h := by simp [State.init] at h
  lead_match U L h := by simp [State.init] at h
  node q :=
    { le := by simp [State.init]
      floor_le := le_rfl
      committed := Or.inl rfl
      matched := by simp [State.init] }
  cand c U F t h := by simp [State.init] at h
  voted_cand v U c h := h.elim
  ack_own q T n h := h.elim
  ack_held q T n L h := h.elim
  vote_held v U c F t T n L h := h.elim
  elected U L h := by simp [State.init] at h
  committed_ack T n h := h.elim
  floor_own q L n h := by simp [State.init] at h

section Growth

variable [DecidableEq ν]

/-- A step only adds to the history. -/
theorem Inv.le (h : Inv 𝒬 a) (hs : Step 𝒬 a b) : a ≤ b := by
  cases hs with
  | bump q U hU => exact State.le_bump hU
  | stand c U t hU =>
      refine ⟨(State.le_bump hU).term_le, fun _ => le_rfl, (State.le_bump hU).lead_le, ?_,
        fun _ _ _ h => Or.inl h, fun _ _ _ h => h, fun _ _ h => h⟩
      intro c' U' F hF
      by_cases hc : c' = c
      · subst hc
        have hle := (h.cand c' U' F.1 F.2 hF).1
        have hne : U' ≠ U := by omega
        simpa [State.stand, hne] using hF
      · simpa [State.stand, hc] using hF
  | vote v c U F t =>
      exact ⟨fun _ => le_rfl, fun _ => le_rfl, fun _ L hL => ⟨L, hL, List.prefix_rfl⟩,
        fun _ _ _ h => h, fun _ _ _ h => Or.inl h, fun _ _ _ h => h, fun _ _ h => h⟩
  | elect c U V F t hnone =>
      refine ⟨fun _ => le_rfl, fun _ => le_rfl, ?_, fun _ _ _ h => h, fun _ _ _ h => h,
        fun _ _ _ h => h, fun _ _ h => h⟩
      intro U' L hL
      have hne : U' ≠ U := by
        rintro rfl
        rw [hnone] at hL
        cases hL
      exact ⟨L, by simpa [State.elect, hne] using hL, List.prefix_rfl⟩
  | append c U e hterm hlead =>
      refine ⟨fun _ => le_rfl, fun _ => le_rfl, ?_, fun _ _ _ h => h, fun _ _ _ h => h,
        fun _ _ _ h => Or.inl h, fun _ _ h => h⟩
      intro U' L hL
      by_cases hU : U' = U
      · subst hU
        obtain rfl : a.log c = L := Option.some.inj (hlead.symm.trans hL)
        exact ⟨a.log c ++ [e], by simp [State.append], List.prefix_append _ _⟩
      · exact ⟨L, by simpa [State.append, hU] using hL, List.prefix_rfl⟩
  | accept q U prev m L F =>
      exact ⟨fun _ => le_rfl, fun _ => le_rfl, fun _ L hL => ⟨L, hL, List.prefix_rfl⟩,
        fun _ _ _ h => h, fun _ _ _ h => h, fun _ _ _ h => Or.inl h, fun _ _ h => h⟩
  | install q U s L hterm hlead hs hfloor =>
      refine ⟨fun _ => le_rfl, fun q' => ?_, fun _ L hL => ⟨L, hL, List.prefix_rfl⟩,
        fun _ _ _ h => h, fun _ _ _ h => h, fun _ _ _ h => h, fun _ _ h => h⟩
      by_cases hq : q' = q
      · simpa [State.install, hq] using hfloor
      · simp [State.install, hq]
  | commit U n Q L =>
      exact ⟨fun _ => le_rfl, fun _ => le_rfl, fun _ L hL => ⟨L, hL, List.prefix_rfl⟩,
        fun _ _ _ h => h, fun _ _ _ h => h, fun _ _ _ h => h, fun _ _ h => Or.inl h⟩

end Growth

section Steps

variable [DecidableEq ν]

theorem Inv.bump (h : Inv 𝒬 a) {q : ν} {U : ℕ} (hU : a.term q < U) : Inv 𝒬 (a.bump q U) := by
  have hle : a ≤ a.bump q U := State.le_bump hU
  refine { h with
    node := fun q' => (h.node q').mono hle (hle.term_le q')
    cand := fun _ _ _ _ hF => h.cand_mono hle hF
    voted_cand := fun v U' c hv => ⟨(h.voted_cand v U' c hv).1.trans (hle.term_le v),
      (h.voted_cand v U' c hv).2⟩
    ack_own := fun q' T n ha => ⟨((h.ack_own q' T n ha).1).trans (hle.term_le q'),
      (h.ack_own q' T n ha).2⟩
    ack_held := ?_
    floor_own := ?_ }
  · intro q' T n L ha hL hsafe
    have hbound : a.term q' + 1 ≤ (a.bump q U).term q' + 1 :=
      Nat.succ_le_succ (hle.term_le q')
    exact h.ack_held q' T n L ha hL (State.SafeBelow.of_le hsafe hbound)
  · intro q' L n hL hn hown
    by_cases hq : q' = q
    · -- nothing below the floor carries the new term
      subst hq
      have hterm : (a.bump q' U).term q' = U := by simp [State.bump]
      rw [hterm] at hL hown
      have hag := h.committedUpTo_lead (h.node q').committed hL hU.le
      rw [← termAt_congr hag.1 hn] at hown
      obtain ⟨k, e, -, he, het⟩ := termAt_pos hown (h.lead_pos U L hL)
      have := (h.node q').le e (List.mem_of_getElem? he)
      omega
    · have hterm : (a.bump q U).term q' = a.term q' := by simp [State.bump, hq]
      rw [hterm] at hL hown ⊢
      exact h.floor_own q' L n hL hn hown

theorem Inv.stand (h : Inv 𝒬 a) {c : ν} {U t : ℕ} (hU : a.term c < U)
    (ht : a.Claim (a.log c) t (a.term c)) : Inv 𝒬 (a.stand c U t) := by
  have hle : a ≤ a.stand c U t := h.le (.stand c U t hU ht)
  have hb := h.bump hU
  have hnew : (a.stand c U t).cand c U = some (a.log c, t) := by simp [State.stand]
  refine { h with
    node := fun q => (h.node q).mono hle (hle.term_le q)
    cand := ?_
    voted_cand := ?_
    ack_own := hb.ack_own
    ack_held := hb.ack_held
    vote_held := ?_
    elected := ?_
    floor_own := hb.floor_own }
  · intro c' U' F t' hF
    by_cases hold : c' = c ∧ U' = U
    · obtain ⟨rfl, rfl⟩ := hold
      obtain ⟨rfl, rfl⟩ := Prod.mk.inj (Option.some.inj (hnew.symm.trans hF))
      exact ⟨by simp [State.stand], a.term c', a.floor c', hU, (h.node c').mono hle le_rfl,
        ht.mono hle⟩
    · have hF' : a.cand c' U' = some (F, t') := by
        by_cases hc : c' = c
        · subst hc
          have hne : U' ≠ U := fun hUU => hold ⟨rfl, hUU⟩
          simpa [State.stand, hne] using hF
        · simpa [State.stand, hc] using hF
      exact h.cand_mono hle hF'
  · rintro v U' c' (hv | ⟨rfl, rfl, rfl⟩)
    · obtain ⟨hU', F, hF⟩ := h.voted_cand v U' c' hv
      exact ⟨hU'.trans (hle.term_le v), F, hle.cand_eq c' U' F hF⟩
    · exact ⟨by simp [State.stand], _, hnew⟩
  · rintro v U' c' F t' T n L (hv | ⟨rfl, rfl, rfl⟩) hF ha hL hTU hsafe
    · obtain ⟨-, x, hx⟩ := h.voted_cand v U' c' hv
      obtain rfl : x = (F, t') := Option.some.inj ((hle.cand_eq c' U' x hx).symm.trans hF)
      exact h.vote_held v U' c' F t' T n L hv hx ha hL hTU hsafe
    · -- the vote for itself: the node still holds what it acknowledged
      obtain ⟨rfl, rfl⟩ := Prod.mk.inj (Option.some.inj (hnew.symm.trans hF))
      have hheld := h.ack_held c' T n L ha hL (State.SafeBelow.of_le hsafe hU)
      obtain ⟨-, L', hL', hown⟩ := h.ack_own c' T n ha
      obtain rfl : L = L' := Option.some.inj (hL.symm.trans hL')
      obtain ⟨k, e, rfl, -, -⟩ := termAt_pos hown (h.lead_pos T L hL')
      have hlen := hheld.1.symm.length_le (termAt_le_length hown)
      have hlast := lastTerm_ge hheld (Nat.succ_pos k) hlen
      refine ⟨?_, fun _ => hheld.1⟩
      rcases ht with rfl | ⟨hclaim, -⟩
      · omega
      · omega
  · intro U' L hL
    obtain ⟨c', V, F, t', hV, hvoted, hcand, hrest⟩ := h.elected U' L hL
    exact ⟨c', V, F, t', hV, fun v hv => Or.inl (hvoted v hv), hle.cand_eq c' U' _ hcand, hrest⟩

theorem Inv.vote (h : Inv 𝒬 a) {v c : ν} {U t : ℕ} {F : List ε} (hterm : a.term v = U)
    (hnone : a.lead U = none) (hcand : a.cand c U = some (F, t))
    (hup : UpToDate F t (a.log v)) : Inv 𝒬 (a.vote v U c) := by
  have hle : a ≤ a.vote v U c := h.le (.vote v c U F t hterm hnone hcand hup)
  refine { h with
    node := fun q => (h.node q).mono hle le_rfl
    cand := fun _ _ _ _ hF' => h.cand_mono hle hF'
    voted_cand := ?_
    vote_held := ?_
    elected := ?_ }
  · rintro v' U' c' (hv | ⟨rfl, rfl, rfl⟩)
    · exact h.voted_cand v' U' c' hv
    · exact ⟨hterm.ge, _, hcand⟩
  · rintro v' U' c' F' t' T n L (hv | ⟨rfl, rfl, rfl⟩) hF' ha hL hTU hsafe
    · exact h.vote_held v' U' c' F' t' T n L hv hF' ha hL hTU hsafe
    · obtain ⟨rfl, rfl⟩ := Prod.mk.inj (Option.some.inj (hcand.symm.trans hF'))
      have hsafe' : a.SafeBelow L T n (a.term v' + 1) := by
        intro X L' hTX hX hL'
        rcases Nat.lt_or_ge X U' with hlt | hge
        · exact hsafe X L' hTX hlt hL'
        · obtain rfl : X = U' := by omega
          rw [hnone] at hL'
          cases hL'
      obtain ⟨-, L', hL', hown⟩ := h.ack_own v' T n ha
      obtain rfl : L = L' := Option.some.inj (hL.symm.trans hL')
      obtain ⟨-, B, f, hB, hS, -⟩ := h.cand c' U' F t hcand
      exact h.carried_of_upToDate hS hB hL hown hsafe (h.ack_held v' T n L ha hL hsafe') hup
  · intro U' L hL
    obtain ⟨c', V, F', t', hV, hvoted, hrest⟩ := h.elected U' L hL
    exact ⟨c', V, F', t', hV, fun v' hv => Or.inl (hvoted v' hv), hrest⟩

theorem Inv.elect (h : Inv 𝒬 a) {c : ν} {U t : ℕ} {V : Finset ν} {F : List ε}
    (hnone : a.lead U = none) (hcand : a.cand c U = some (F, t)) (hV : 𝒬.elect V)
    (hvoted : ∀ v ∈ V, a.voted v U c) : Inv 𝒬 (a.elect U F) := by
  have hle : a ≤ a.elect U F := h.le (.elect c U V F t hnone hcand hV hvoted)
  obtain ⟨-, B, f, hB, hS, -⟩ := h.cand c U F t hcand
  have hother : ∀ {T : ℕ} {L : List ε}, a.lead T = some L → (a.elect U F).lead T = some L :=
    fun hL => State.lead_elect hnone hL F
  have hold : ∀ {q : ν} {T n : ℕ} {L : List ε}, a.ack q T n →
      (a.elect U F).lead T = some L → a.lead T = some L := by
    intro q T n L ha hL
    obtain ⟨-, L', hL', -⟩ := h.ack_own q T n ha
    rw [← hL, hother hL', hL']
  have hsafe : ∀ {L : List ε} {T n X : ℕ}, (a.elect U F).SafeBelow L T n X →
      a.SafeBelow L T n X := fun hs X L' hT hX hL' => hs X L' hT hX (hother hL')
  refine { h with
    lead_pos := ?_
    lead_term_le := ?_
    lead_sorted := ?_
    lead_match := ?_
    node := fun q => (h.node q).mono hle le_rfl
    cand := fun _ _ _ _ hF' => h.cand_mono hle hF'
    ack_own := ?_
    ack_held := fun q T n L ha hL hs => h.ack_held q T n L ha (hold ha hL) (hsafe hs)
    vote_held := fun v U' c' F' t' T n L hv hF' ha hL hTU hs =>
      h.vote_held v U' c' F' t' T n L hv hF' ha (hold ha hL) hTU (hsafe hs)
    elected := ?_
    committed_ack := ?_
    floor_own := ?_ }
  · intro T L hL
    rcases State.lead_elect_cases hL with ⟨rfl, -⟩ | hL
    · omega
    · exact h.lead_pos T L hL
  · intro T L hL e he
    rcases State.lead_elect_cases hL with ⟨rfl, rfl⟩ | hL
    · exact (hS.le e he).trans hB.le
    · exact h.lead_term_le T L hL e he
  · intro T L hL j k e e' hjk he he'
    rcases State.lead_elect_cases hL with ⟨rfl, rfl⟩ | hL
    · obtain ⟨L', hL', hag⟩ := h.agree_of_voted hS hB hcand hV hvoted he'
      exact h.lead_sorted _ L' hL' j k e e' hjk
        (by rw [← hag j (Nat.zero_le j) (by omega), he])
        (by rw [← hag k (Nat.zero_le k) (by omega), he'])
    · exact h.lead_sorted T L hL j k e e' hjk he he'
  · intro T L hL k e he
    rcases State.lead_elect_cases hL with ⟨rfl, rfl⟩ | hL
    · obtain ⟨L', hL', hag⟩ := h.agree_of_voted hS hB hcand hV hvoted he
      exact ⟨L', hother hL', hag⟩
    · obtain ⟨L', hL', hag⟩ := h.lead_match T L hL k e he
      exact ⟨L', hother hL', hag⟩
  · intro q T n ha
    obtain ⟨hT, L, hL, hown⟩ := h.ack_own q T n ha
    exact ⟨hT, L, hother hL, hown⟩
  · intro T L hL
    rcases State.lead_elect_cases hL with ⟨rfl, rfl⟩ | hL
    · refine ⟨c, V, L, t, hV, hvoted, hcand, List.prefix_rfl, ?_⟩
      intro j e hj he
      rw [List.getElem?_eq_none hj] at he
      cases he
    · exact h.elected T L hL
  · intro T n hc
    obtain ⟨L, hL, hrest⟩ := h.committed_ack T n hc
    exact ⟨L, hother hL, hrest⟩
  · intro q L n hL hn hown
    rcases State.lead_elect_cases hL with ⟨hq, rfl⟩ | hL
    · have hpos : 0 < a.term q := by
        have : a.term q = U := hq
        omega
      obtain ⟨k, e, -, he, het⟩ := termAt_pos hown hpos
      have h1 := hS.le e (List.mem_of_getElem? he)
      have h2 : termOf e = U := het.trans hq
      omega
    · exact h.floor_own q L n hL hn hown

section Append

variable {c : ν} {U : ℕ} {e : ε}

/-- What the leaders of the new state have, those of the old one had. -/
theorem Inv.safeBelow_of_append (h : Inv 𝒬 a) (hlead : a.lead U = some (a.log c))
    (he : termOf e = U) {L L₀ : List ε} {T n X : ℕ} (hL₀ : a.lead T = some L₀)
    (hag : Agree 0 n L₀ L) (hs : (a.append c U e).SafeBelow L T n X) : a.SafeBelow L₀ T n X := by
  intro X' L' hT hX hL'
  by_cases hU : X' = U
  · subst hU
    obtain rfl : a.log c = L' := Option.some.inj (hlead.symm.trans hL')
    exact h.agree_of_append hL₀ hT he (hag.trans (hs X' _ hT hX (a.lead_append c X' e)))
  · exact hag.trans (hs X' L' hT hX (by simpa [State.append, hU] using hL'))

theorem Inv.match_append (h : Inv 𝒬 a) (hle : a ≤ a.append c U e)
    (hlead : a.lead U = some (a.log c)) (he : termOf e = U) {T k : ℕ} {L : List ε} {e' : ε}
    (hL : (a.append c U e).lead T = some L) (hk : L[k]? = some e') :
    ∃ L', (a.append c U e).lead (termOf e') = some L' ∧ Agree 0 (k + 1) L L' := by
  -- the old log of the term has the entry, or it is the new one
  have hold : ∀ {L₀ : List ε}, a.lead T = some L₀ → L₀[k]? = some e' →
      ∃ L', (a.append c U e).lead (termOf e') = some L' ∧ Agree 0 (k + 1) L₀ L' := by
    intro L₀ hL₀ hk
    obtain ⟨L', hL', hag⟩ := h.lead_match T L₀ hL₀ k e' hk
    obtain ⟨L'', hL'', hpre⟩ := hle.lead_le _ L' hL'
    exact ⟨L'', hL'', hag.extend_left (List.getElem?_eq_some_iff.mp hk).1 hpre⟩
  rcases State.lead_append_cases hL with ⟨rfl, rfl⟩ | hL
  · rcases Growth.getElem?_concat_cases hk with ⟨-, hin⟩ | ⟨rfl, rfl⟩
    · obtain ⟨L', hL', hag⟩ := hold hlead hin
      have hlt : k + 1 ≤ (a.log c).length := (List.getElem?_eq_some_iff.mp hin).1
      have hpre := Agree.of_isPrefix (List.prefix_append (a.log c) [e])
      exact ⟨L', hL', (hpre.mono le_rfl hlt).symm.trans hag⟩
    · exact ⟨_, by rw [he]; exact a.lead_append c T e', Agree.refl _ _ _⟩
  · exact hold hL hk

/-- The new entry keeps what the node that appends it has acknowledged. -/
theorem Inv.held_append (h : Inv 𝒬 a) (hterm : a.term c = U) (he : termOf e = U)
    {q : ν} {T n : ℕ} {L₀ L : List ε} (ha : a.ack q T n) (hlen : n ≤ L₀.length)
    (hag : Agree 0 n L₀ L) (hheld : Holds (a.log q) L₀ T n) :
    Holds ((a.append c U e).log q) L T n := by
  by_cases hq : q = c
  · subst hq
    have hT : T ≤ termOf e := ((h.ack_own q T n ha).1.trans hterm.le).trans he.ge
    rw [State.log_append]
    exact (hheld.concat (hheld.1.symm.length_le hlen) hT).congr hag
  · have hlog : (a.append c U e).log q = a.log q := by simp [State.append, hq]
    rw [hlog]
    exact hheld.congr hag

theorem Inv.append (h : Inv 𝒬 a) (hterm : a.term c = U) (hlead : a.lead U = some (a.log c))
    (he : termOf e = U) : Inv 𝒬 (a.append c U e) := by
  have hle : a ≤ a.append c U e := h.le (.append c U e hterm hlead he)
  have hnew := a.lead_append c U e
  refine { h with
    lead_pos := ?_
    lead_term_le := ?_
    lead_sorted := ?_
    lead_match := fun _ _ hL _ _ hk => h.match_append hle hlead he hL hk
    node := ?_
    cand := fun _ _ _ _ hF => h.cand_mono hle hF
    ack_own := ?_
    ack_held := ?_
    vote_held := ?_
    elected := ?_
    committed_ack := ?_
    floor_own := ?_ }
  · intro T L hL
    rcases State.lead_append_cases hL with ⟨rfl, -⟩ | hL
    · exact h.lead_pos T _ hlead
    · exact h.lead_pos T L hL
  · intro T L hL e' he'
    rcases State.lead_append_cases hL with ⟨rfl, rfl⟩ | hL
    · rcases List.mem_append.mp he' with hmem | hmem
      · exact h.lead_term_le T _ hlead e' hmem
      · rw [List.mem_singleton.mp hmem, he]
    · exact h.lead_term_le T L hL e' he'
  · intro T L hL j k e₁ e₂ hjk he₁ he₂
    rcases State.lead_append_cases hL with ⟨rfl, rfl⟩ | hL
    · exact h.sorted_concat hlead he hjk he₁ he₂
    · exact h.lead_sorted T L hL j k e₁ e₂ hjk he₁ he₂
  · intro q
    have hS := (h.node q).mono hle le_rfl
    by_cases hq : q = c
    · subst hq
      rw [State.log_append]
      exact hS.concat (he.trans hterm.symm).le (by rw [he]; exact hnew)
    · have hlog : (a.append c U e).log q = a.log q := by simp [State.append, hq]
      rw [hlog]
      exact hS
  · rintro q T n (ha | ⟨rfl, rfl, rfl⟩)
    · obtain ⟨hT, L, hL, hown⟩ := h.ack_own q T n ha
      obtain ⟨L', hL', hpre⟩ := hle.lead_le T L hL
      exact ⟨hT, L', hL', termAt_of_isPrefix hown hpre⟩
    · exact ⟨hterm.ge, _, hnew, termAt_succ_eq_some.mpr ⟨e, by simp, he⟩⟩
  · rintro q T n L (ha | ⟨rfl, rfl, rfl⟩) hL hs
    · obtain ⟨L₀, hL₀, hlen, hag⟩ := h.exists_lead_of_ack hle ha hL
      have hs₀ := h.safeBelow_of_append hlead he hL₀ hag hs
      exact h.held_append hterm he ha hlen hag (h.ack_held q T n L₀ ha hL₀ hs₀)
    · obtain rfl : a.log q ++ [e] = L := Option.some.inj (hnew.symm.trans hL)
      rw [State.log_append]
      refine ⟨Agree.refl _ _ _, ?_⟩
      intro k e' hk he'
      rcases Growth.getElem?_concat_cases he' with ⟨-, hin⟩ | ⟨-, rfl⟩
      · have := (List.getElem?_eq_some_iff.mp hin).1
        omega
      · exact he.ge
  · rintro v U' c' F t T n L hv hF (ha | ⟨rfl, rfl, rfl⟩) hL hTU hs
    · obtain ⟨L₀, hL₀, -, hag⟩ := h.exists_lead_of_ack hle ha hL
      have hs₀ := h.safeBelow_of_append hlead he hL₀ hag hs
      have hheld := h.vote_held v U' c' F t T n L₀ hv hF ha hL₀ hTU hs₀
      exact ⟨hheld.1, fun ht => (hheld.2 ht).trans hag⟩
    · -- a node that leads has cast no vote in a later term
      have := (h.voted_cand v U' c' hv).1
      omega
  · intro T L hL
    rcases State.lead_append_cases hL with ⟨rfl, rfl⟩ | hL
    · obtain ⟨c', V, F, t, hV, hvoted, hcand, hpre, hown⟩ := h.elected T _ hlead
      refine ⟨c', V, F, t, hV, hvoted, hcand, hpre.trans (List.prefix_append _ _), ?_⟩
      intro j e' hj he'
      rcases Growth.getElem?_concat_cases he' with ⟨-, hin⟩ | ⟨-, rfl⟩
      · exact hown j e' hj hin
      · exact he
    · exact h.elected T L hL
  · intro T n hc
    obtain ⟨L, hL, hown, Q, hQ, hall⟩ := h.committed_ack T n hc
    obtain ⟨L', hL', hpre⟩ := hle.lead_le T L hL
    exact ⟨L', hL', termAt_of_isPrefix hown hpre, Q, hQ, fun q hq => Or.inl (hall q hq)⟩
  · intro q L n hL hn hown
    rcases State.lead_append_cases hL with ⟨hq, rfl⟩ | hL
    · have hq' : a.term q = U := hq
      have hlead' : a.lead (a.term q) = some (a.log c) := by rw [hq', hlead]
      have hlen := (h.committedUpTo_lead (h.node q).committed hlead' le_rfl).2
      have hag := (Agree.of_isPrefix (List.prefix_append (a.log c) [e])).mono le_rfl
        ((show n ≤ a.floor q from hn).trans hlen)
      rw [← termAt_congr hag le_rfl] at hown
      exact h.floor_own q _ n hlead' hn hown
    · exact h.floor_own q L n hL hn hown

end Append

theorem Inv.accept (h : Inv 𝒬 a) {q : ν} {U prev m t : ℕ} {L F : List ε}
    (hterm : a.term q = U) (hlead : a.lead U = some L) (hfloor : a.floor q ≤ prev)
    (hprev : prev ≤ m) (hm : m ≤ L.length) (hq : termAt (a.log q) prev = some t)
    (hL : termAt L prev = some t) (hF : Merged (a.log q) L m F) :
    Inv 𝒬 (a.accept q U m L F) := by
  have hle : a ≤ a.accept q U m L F :=
    h.le (.accept q U prev m L F hterm hlead hfloor hprev hm t hq hL hF)
  have hS := h.node q
  have hlogq : (a.accept q U m L F).log q = F := by simp [State.accept]
  have hlog : ∀ q', q' ≠ q → (a.accept q U m L F).log q' = a.log q' := by
    intro q' hne
    simp [State.accept, hne]
  refine { h with
    node := ?_
    cand := fun _ _ _ _ hF' => h.cand_mono hle hF'
    ack_own := ?_
    ack_held := ?_
    vote_held := ?_
    committed_ack := ?_ }
  · intro q'
    by_cases hne : q' = q
    · subst hne
      rw [hlogq]
      rcases hF with ⟨-, rfl⟩ | ⟨-, rfl⟩
      · exact hS.mono hle le_rfl
      · have hlow := (h.committedUpTo_lead hS.committed hlead hterm.le).1
        exact (h.sound_take hlead hterm.ge (hS.committed.congr hlow.symm) (hfloor.trans hprev)
          hm).mono hle le_rfl
    · rw [hlog q' hne]
      exact (h.node q').mono hle le_rfl
  · rintro q' T n (ha | ⟨rfl, rfl, -, -, hown⟩)
    · exact h.ack_own q' T n ha
    · exact ⟨hterm.ge, L, hlead, hown⟩
  · rintro q' T n L' (ha | ⟨rfl, rfl, hn, hnm, hown⟩) hL' hs
    · have hheld := h.ack_held q' T n L' ha hL' hs
      by_cases hne : q' = q
      · subst hne
        rw [hlogq]
        exact hheld.merged (h.holds_acked hterm hlead ha hL' hs) hF
      · rw [hlog q' hne]
        exact hheld
    · obtain rfl : L = L' := Option.some.inj (hlead.symm.trans hL')
      rw [hlogq]
      exact h.holds_merged hS hlead hF hn hnm hown
  · rintro v U' c' F' t' T n L' hv hF' (ha | ⟨rfl, rfl, -⟩) hL' hTU hs
    · exact h.vote_held v U' c' F' t' T n L' hv hF' ha hL' hTU hs
    · have := (h.voted_cand v U' c' hv).1
      omega
  · intro T n hc
    obtain ⟨L', hL', hown, Q, hQ, hall⟩ := h.committed_ack T n hc
    exact ⟨L', hL', hown, Q, hQ, fun q' hq' => Or.inl (hall q' hq')⟩

theorem Inv.install (h : Inv 𝒬 a) {q : ν} {U s : ℕ} {L : List ε} (hterm : a.term q = U)
    (hlead : a.lead U = some L) (hs : s ≤ L.length) (hfloor : a.floor q ≤ s)
    (hcom : a.CommittedUpTo L s U) : Inv 𝒬 (a.install q s L) := by
  have hle : a ≤ a.install q s L := h.le (.install q U s L hterm hlead hs hfloor hcom)
  have hlogq : (a.install q s L).log q = L.take s ++ (a.log q).drop s := by simp [State.install]
  have hflq : (a.install q s L).floor q = s := by simp [State.install]
  have hlog : ∀ q', q' ≠ q → (a.install q s L).log q' = a.log q' := by
    intro q' hne
    simp [State.install, hne]
  have hfl : ∀ q', q' ≠ q → (a.install q s L).floor q' = a.floor q' := by
    intro q' hne
    simp [State.install, hne]
  refine { h with
    node := ?_
    cand := fun _ _ _ _ hF' => h.cand_mono hle hF'
    ack_held := ?_
    floor_own := ?_ }
  · intro q'
    by_cases hne : q' = q
    · subst hne
      rw [hlogq, hflq]
      exact (h.sound_splice (h.node q') hlead hterm.ge hs hfloor
        (hcom.mono le_rfl hterm.ge)).mono hle le_rfl
    · rw [hlog q' hne, hfl q' hne]
      exact (h.node q').mono hle le_rfl
  · intro q' T n L' ha hL' hsafe
    have hheld := h.ack_held q' T n L' ha hL' hsafe
    by_cases hne : q' = q
    · subst hne
      rw [hlogq]
      exact hheld.splice (h.holds_acked hterm hlead ha hL' hsafe) hs
    · rw [hlog q' hne]
      exact hheld
  · intro q' L' n hL' hn hown
    by_cases hne : q' = q
    · subst hne
      rw [hflq] at hn
      have hterm' : (a.install q' s L).term q' = U := hterm
      rw [hterm'] at hL' hown ⊢
      obtain rfl : L = L' := Option.some.inj (hlead.symm.trans hL')
      rcases hcom with rfl | ⟨T, n', L₁, hT, hc, hL₁, hsn, -, hag⟩
      · obtain ⟨k, e, hk, -, -⟩ := termAt_pos hown (h.lead_pos U L hlead)
        omega
      · rcases hT.eq_or_lt with rfl | hlt
        · exact ⟨n', hn.trans hsn, hc⟩
        · rw [termAt_congr hag hn] at hown
          have := h.termAt_lead_le hL₁ hown
          omega
    · rw [hfl q' hne] at hn
      exact h.floor_own q' L' n hL' hn hown

theorem Inv.commit (h : Inv 𝒬 a) {U n : ℕ} {Q : Finset ν} {L : List ε}
    (hlead : a.lead U = some L) (hown : termAt L n = some U) (hQ : 𝒬.commit Q)
    (hack : ∀ q ∈ Q, a.ack q U n) : Inv 𝒬 (a.commit U n) := by
  have hle : a ≤ a.commit U n := h.le (.commit U n Q L hlead hown hQ hack)
  refine { h with
    node := fun q => (h.node q).mono hle le_rfl
    cand := fun _ _ _ _ hF' => h.cand_mono hle hF'
    committed_ack := ?_
    floor_own := ?_ }
  · rintro T m (hc | ⟨rfl, rfl⟩)
    · exact h.committed_ack T m hc
    · exact ⟨L, hlead, hown, Q, hQ, hack⟩
  · intro q L' m hL' hm hown'
    obtain ⟨n', hn', hc⟩ := h.floor_own q L' m hL' hm hown'
    exact ⟨n', hn', Or.inl hc⟩

/-- Every step keeps the invariant. -/
theorem Inv.step (h : Inv 𝒬 a) (hs : Step 𝒬 a b) : Inv 𝒬 b := by
  cases hs with
  | bump q U hU => exact h.bump hU
  | stand c U t hU ht => exact h.stand hU ht
  | vote v c U F t hterm hnone hcand hup => exact h.vote hterm hnone hcand hup
  | elect c U V F t hnone hcand hV hvoted => exact h.elect hnone hcand hV hvoted
  | append c U e hterm hlead he => exact h.append hterm hlead he
  | accept q U prev m L F hterm hlead hfloor hprev hm t hq hL hF =>
      exact h.accept hterm hlead hfloor hprev hm hq hL hF
  | install q U s L hterm hlead hs hfloor hcom => exact h.install hterm hlead hs hfloor hcom
  | commit U n Q L hlead hown hQ hack => exact h.commit hlead hown hQ hack

/-- The states that the protocol reaches. -/
inductive Reachable (𝒬 : Quorums ν) : State ν ε → Prop where
  | init : Reachable 𝒬 State.init
  | step {a b : State ν ε} : Reachable 𝒬 a → Step 𝒬 a b → Reachable 𝒬 b

theorem Reachable.inv (h : Reachable 𝒬 a) : Inv 𝒬 a := by
  induction h with
  | init => exact Inv.init 𝒬
  | step _ hs ih => exact ih.step hs

end Steps

end ReplicatedLog
