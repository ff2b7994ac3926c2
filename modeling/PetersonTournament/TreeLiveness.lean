import PetersonTournament.TreeBypass

/-!
# Starvation freedom under fair scheduling

Under a schedule that runs every participant infinitely often, a participant inside
`tournament_acquire` reaches its critical section. The proof is by strong induction on the
level, from the root. A waiter's wait condition, once false, stays false until its next re-check:
no other step raises the other role's flag without giving it `turn`. While the condition is
true, the rival registered at the node either waits there with its own condition false, and so
passes, or is already past the node; from there it reaches its critical section by the
induction hypothesis, and it lowers its flag at the node on its way out.
-/

namespace PetersonTournament

section
variable {c : Config} {s : Tournament (2 ^ c.levels)} {p : Fin (2 ^ c.levels)} {l : Nat}

/-- No move but the waiter's own makes its wait condition true. -/
theorem TreeInv.waitCondition_of_step (hi : TreeInv c s) (hp : s.phase p = .waiting l)
    {m : TournamentMove (2 ^ c.levels)} {s' : Tournament (2 ^ c.levels)}
    (h : s.step (c.globals 0) m = some s') (hm : m ≠ .run p)
    (hw : waitCondition (s'.ptable (c.slot (arrayIdx c.levels p l))) (nodeRole c.levels p l)) :
    waitCondition (s.ptable (c.slot (arrayIdx c.levels p l))) (nodeRole c.levels p l) := by
  cases m with
  | exit q =>
    simp only [Tournament.step] at h
    split_ifs at h
    cases h
    exact hw
  | run q =>
    obtain ⟨⟨ph, t⟩, hst, rfl⟩ := Option.map_eq_some'.1 h
    rw [Config.globals_child] at hst
    dsimp only at hw
    rcases hi.rival_step hp (fun e => hm (by rw [e])) hst with ⟨ht | ht, -⟩ | ⟨ht, -⟩ |
        ⟨-, -, -, -, -, rfl⟩
    · rwa [ht] at hw
    · simp [ht] at hw
    · simp [ht] at hw
    · exact hw

theorem TreeInv.rival_of_waitCondition (hi : TreeInv c s) (hl : l < c.levels)
    (hw : waitCondition (s.ptable (c.slot (arrayIdx c.levels p l))) (nodeRole c.levels p l)) :
    ∃ q : Fin (2 ^ c.levels), arrayIdx c.levels q l = arrayIdx c.levels p l ∧
      nodeRole c.levels q l = 1 - nodeRole c.levels p l ∧ (s.phase q).registered l := by
  simp only [waitCondition, Bool.and_eq_true, beq_iff_eq] at hw
  obtain ⟨q, l', hl', hk, hr, hreg⟩ :=
    ((hi.node _ (arrayIdx_lt_nodes p.2 hl)).flag_iff _).1 hw.1
  obtain rfl := arrayIdx_level_inj q.2 p.2 hl' hl hk
  exact ⟨q, hk, hr, hreg⟩

end

section
variable {c : Config} {σ : Nat → TournamentMove (2 ^ c.levels)} {s₀ : Tournament (2 ^ c.levels)}
  {p : Fin (2 ^ c.levels)} {l : Nat}

theorem exec_run_waiting {j : Nat} (hi : TreeInv c (s₀.exec (c.globals 0) σ j))
    (hw : (s₀.exec (c.globals 0) σ j).phase p = .waiting l) (hr : σ j = .run p) :
    (s₀.exec (c.globals 0) σ (j + 1)).phase p =
      if waitCondition ((s₀.exec (c.globals 0) σ j).ptable (c.slot (arrayIdx c.levels p l)))
          (nodeRole c.levels p l) then .waiting l else afterAcquire l .acquired := by
  have hl : l < c.levels := by simpa [hw, Phase.inRange] using hi.inRange p
  rw [Tournament.exec_succ_run hr (by rw [Config.globals_child, hw,
    participantStep_waiting_of_active c p.2 hl (hi.active _ (arrayIdx_lt_nodes p.2 hl))])]
  exact Function.update_same _ _ _

theorem exec_passes_of_free {j : Nat} (hf : Tournament.Fair σ)
    (hI : ∀ j, TreeInv c (s₀.exec (c.globals 0) σ j))
    (hw : (s₀.exec (c.globals 0) σ j).phase p = .waiting l)
    (hc : waitCondition ((s₀.exec (c.globals 0) σ j).ptable (c.slot (arrayIdx c.levels p l)))
      (nodeRole c.levels p l) = false) :
    ∃ j' ≥ j, (s₀.exec (c.globals 0) σ j').phase p = afterAcquire l .acquired := by
  obtain ⟨j₁, hj₁, hr, hw₁, hc₁⟩ := hf.run_of_stable (p := p)
    (Q := fun i => (s₀.exec (c.globals 0) σ i).phase p = .waiting l ∧
      waitCondition ((s₀.exec (c.globals 0) σ i).ptable (c.slot (arrayIdx c.levels p l)))
        (nodeRole c.levels p l) = false)
    (fun i _ ⟨hwi, hci⟩ hσ => ⟨(Tournament.exec_phase_of_ne hσ (by rw [hwi]; nofun)).trans hwi,
      by
        cases h : (s₀.exec (c.globals 0) σ i).step (c.globals 0) (σ i) with
        | none => rwa [Tournament.exec_succ_of_none h]
        | some s' =>
          rw [Tournament.exec_succ_of_step h, Bool.eq_false_iff]
          exact fun ht => by simp [(hI i).waitCondition_of_step hwi h hσ ht] at hci⟩)
    ⟨hw, hc⟩
  refine ⟨j₁ + 1, by omega, ?_⟩
  rw [exec_run_waiting (hI j₁) hw₁ hr, hc₁]
  rfl

theorem exec_releases (hf : Tournament.Fair σ) (hI : ∀ j, TreeInv c (s₀.exec (c.globals 0) σ j))
    {q : Fin (2 ^ c.levels)} {m j : Nat} (hl : l < c.levels) (hm : m ≤ l)
    (hq : (s₀.exec (c.globals 0) σ j).phase q = .releasing m) :
    ∃ j' ≥ j, ((s₀.exec (c.globals 0) σ j').ptable
      (c.slot (arrayIdx c.levels q l))).flag (nodeRole c.levels q l) = false := by
  obtain ⟨j₁, hj₁, hr, hq₁⟩ := hf.run_of_stable (p := q)
    (Q := fun i => (s₀.exec (c.globals 0) σ i).phase q = .releasing m)
    (fun i _ hi hσ => (Tournament.exec_phase_of_ne hσ (by rw [hi]; nofun)).trans hi) hq
  have hml : m < c.levels := by omega
  have hst := Tournament.exec_succ_run hr (by rw [Config.globals_child, hq₁,
    participantStep_releasing_of_active c q.2 hml ((hI j₁).active _ (arrayIdx_lt_nodes q.2 hml))])
  rcases Nat.lt_or_ge m l with hlt | hge
  · obtain ⟨j', hj', h⟩ := exec_releases hf hI (q := q) (m := m + 1) (j := j₁ + 1) hl hlt
      (by rw [hst]; dsimp only; rw [Function.update_same, if_pos (by omega)])
    exact ⟨j', by omega, h⟩
  · obtain rfl : m = l := le_antisymm hm hge
    exact ⟨j₁ + 1, by omega, by rw [hst]; simp⟩
termination_by l - m

theorem exec_releases_of_critical (hf : Tournament.Fair σ)
    (hI : ∀ j, TreeInv c (s₀.exec (c.globals 0) σ j)) {q : Fin (2 ^ c.levels)} {j : Nat}
    (hl : l < c.levels) (hq : (s₀.exec (c.globals 0) σ j).phase q = .critical) :
    ∃ j' ≥ j, ((s₀.exec (c.globals 0) σ j').ptable
      (c.slot (arrayIdx c.levels q l))).flag (nodeRole c.levels q l) = false := by
  obtain ⟨j₁, hj₁, hr, hq₁⟩ := hf.run_of_stable (p := q)
    (Q := fun i => (s₀.exec (c.globals 0) σ i).phase q = .critical)
    (fun i _ hi hσ => (Tournament.exec_phase_of_ne hσ (by rw [hi]; nofun)).trans hi) hq
  have hst := Tournament.exec_succ_run hr (by rw [Config.globals_child, hq₁,
    participantStep_critical c])
  obtain ⟨j', hj', h⟩ := exec_releases hf hI (q := q) (j := j₁ + 1) hl (Nat.zero_le l)
    (by rw [hst]; dsimp only; rw [Function.update_same, if_neg (by omega)])
  exact ⟨j', by omega, h⟩

theorem exec_critical (hf : Tournament.Fair σ) (hI : ∀ j, TreeInv c (s₀.exec (c.globals 0) σ j)) :
    ∀ l (p : Fin (2 ^ c.levels)) j, ((s₀.exec (c.globals 0) σ j).phase p = .acquiring l ∨
      (s₀.exec (c.globals 0) σ j).phase p = .waiting l) →
      ∃ j' ≥ j, (s₀.exec (c.globals 0) σ j').phase p = .critical := by
  intro l
  induction l using Nat.strong_induction_on with
  | _ l ih =>
  -- past level `l`: at the root that is the critical section, below it level `l - 1`
  have next : ∀ (q : Fin (2 ^ c.levels)) i, (s₀.exec (c.globals 0) σ i).phase q =
      afterAcquire l .acquired → ∃ j' ≥ i, (s₀.exec (c.globals 0) σ j').phase q = .critical := by
    intro q i hq
    by_cases h0 : l = 0
    · exact ⟨i, le_rfl, by rw [hq, afterAcquire, if_pos h0]⟩
    · obtain ⟨j', hj', h⟩ := ih (l - 1) (by omega) q i (.inl (by rw [hq, afterAcquire, if_neg h0]))
      exact ⟨j', hj', h⟩
  -- a rival past the node, in its critical section or releasing, lowers its flag there
  have out : ∀ (q : Fin (2 ^ c.levels)) i, l < c.levels → (s₀.exec (c.globals 0) σ i).phase q ≠
      .waiting l → ((s₀.exec (c.globals 0) σ i).phase q).registered l →
      ∃ j' ≥ i, ((s₀.exec (c.globals 0) σ j').ptable
        (c.slot (arrayIdx c.levels q l))).flag (nodeRole c.levels q l) = false := by
    intro q i hl hne hreg
    cases hs : (s₀.exec (c.globals 0) σ i).phase q with
    | acquiring m | waiting m =>
      have hm : m < l := by
        rw [hs] at hreg hne
        simp only [Phase.registered, ne_eq, Phase.waiting.injEq] at hreg hne
        omega
      obtain ⟨j₁, hj₁, h₁⟩ := ih m hm q i (by simp [hs])
      obtain ⟨j', hj', h⟩ := exec_releases_of_critical hf hI hl h₁
      exact ⟨j', by omega, h⟩
    | critical => exact exec_releases_of_critical hf hI hl hs
    | releasing m =>
      exact exec_releases hf hI hl (by simpa [hs, Phase.registered] using hreg) hs
    | idle | failed | exited => simp [hs, Phase.registered] at hreg
  -- a waiter at level `l` passes its node
  have pass : ∀ (q : Fin (2 ^ c.levels)) i, (s₀.exec (c.globals 0) σ i).phase q = .waiting l →
      ∃ j' ≥ i, (s₀.exec (c.globals 0) σ j').phase q = afterAcquire l .acquired := by
    intro q i hw
    have hl : l < c.levels := by simpa [hw, Phase.inRange] using (hI i).inRange q
    by_contra H
    push_neg at H
    have hW : ∀ i' ≥ i, (s₀.exec (c.globals 0) σ i').phase q = .waiting l := by
      intro i' hi'
      induction i', hi' using Nat.le_induction with
      | base => exact hw
      | succ i' hi' ih' =>
        by_cases hσ : σ i' = .run q
        · have h₁ := exec_run_waiting (hI i') ih' hσ
          split at h₁
          · exact h₁
          · exact absurd h₁ (H (i' + 1) (by omega))
        · rw [Tournament.exec_phase_of_ne hσ (by rw [ih']; nofun), ih']
    have hC : ∀ i' ≥ i, waitCondition ((s₀.exec (c.globals 0) σ i').ptable
        (c.slot (arrayIdx c.levels q l))) (nodeRole c.levels q l) = true := by
      intro i' hi'
      by_contra hc
      obtain ⟨j', hj', h⟩ := exec_passes_of_free hf hI (hW i' hi') (by simpa using hc)
      exact H j' (by omega) h
    -- the flag that keeps `q` waiting stays up
    have hup : ∀ (r : Fin (2 ^ c.levels)), arrayIdx c.levels r l = arrayIdx c.levels q l →
        nodeRole c.levels r l = 1 - nodeRole c.levels q l → ∀ i' ≥ i,
        ((s₀.exec (c.globals 0) σ i').ptable (c.slot (arrayIdx c.levels r l))).flag
          (nodeRole c.levels r l) = true := by
      intro r hk hr i' hi'
      have := hC i' hi'
      simp only [waitCondition, Bool.and_eq_true] at this
      rw [hk, hr]
      exact this.1
    obtain ⟨r, hk, hr, hreg⟩ := (hI i).rival_of_waitCondition hl (hC i le_rfl)
    by_cases hrw : (s₀.exec (c.globals 0) σ i).phase r = .waiting l
    · -- the rival waits at the node too, with `turn` on its side: it passes, then gets out
      have hfree : waitCondition ((s₀.exec (c.globals 0) σ i).ptable
          (c.slot (arrayIdx c.levels r l))) (nodeRole c.levels r l) = false := by
        have := hC i le_rfl
        simp only [waitCondition, Bool.and_eq_true, beq_iff_eq] at this
        simp [waitCondition, hk, hr, this.2]
      obtain ⟨j₁, hj₁, h₁⟩ := exec_passes_of_free hf hI hrw hfree
      obtain ⟨j₂, hj₂, h₂⟩ := next r j₁ h₁
      obtain ⟨j', hj', h⟩ := exec_releases_of_critical hf hI hl h₂
      simp [hup r hk hr j' (by omega)] at h
    · obtain ⟨j', hj', h⟩ := out r i hl hrw hreg
      simp [hup r hk hr j' hj'] at h
  intro q i hq
  rcases hq with hq | hq
  · -- the entry section: `q` waits at the node or is past it at once
    have hl : l < c.levels := by simpa [hq, Phase.inRange] using (hI i).inRange q
    obtain ⟨j₁, hj₁, hr, hq₁⟩ := hf.run_of_stable (p := q)
      (Q := fun i => (s₀.exec (c.globals 0) σ i).phase q = .acquiring l)
      (fun i _ hi hσ => (Tournament.exec_phase_of_ne hσ (by rw [hi]; nofun)).trans hi) hq
    have ha := (hI j₁).active _ (arrayIdx_lt_nodes q.2 hl)
    have hph := congrArg (fun s => Tournament.phase s q) (Tournament.exec_succ_run hr
      (by rw [Config.globals_child, hq₁, participantStep_acquiring_of_active c q.2 hl ha]))
    simp only [Function.update_same] at hph
    split at hph
    · obtain ⟨j₂, hj₂, h₂⟩ := pass q _ hph
      obtain ⟨j', hj', h⟩ := next q j₂ h₂
      exact ⟨j', by omega, h⟩
    · obtain ⟨j', hj', h⟩ := next q _ hph
      exact ⟨j', by omega, h⟩
  · obtain ⟨j₁, hj₁, h₁⟩ := pass q i hq
    obtain ⟨j', hj', h⟩ := next q j₁ h₁
    exact ⟨j', by omega, h⟩

end

/-- Starvation freedom: under a schedule that runs every participant infinitely often, a
participant inside `tournament_acquire` (about to call `peterson_acquire` at some level, or in
its wait loop) of a tournament that `tournament_create` set up reaches its critical section. -/
theorem tournament_starvation_free {n : Int} {g₀ g : Globals} {t₀ t : PTable}
    (hc : tournamentCreate n g₀ t₀ = (0, g, t)) {s : Tournament g.nProcesses}
    (hs : Tournament.Reachable g t s) {σ : Nat → TournamentMove g.nProcesses}
    (hf : Tournament.Fair σ) {p : Fin g.nProcesses} {l : Nat}
    (hp : s.phase p = .acquiring l ∨ s.phase p = .waiting l) :
    ∃ k, (s.exec g σ k).phase p = .critical := by
  obtain ⟨c, rfl, ht⟩ := tournamentCreate_config hc
  obtain ⟨k, -, hk⟩ := exec_critical hf (fun j => (hs.exec σ j).treeInv ht) l p 0 hp
  exact ⟨k, hk⟩

theorem duel_starvation_free :
    Tournament.Fair roundRobin ∧ duelWaiting.phase 1 = .waiting 0 ∧
      ∃ k, (duelWaiting.exec duelGlobals roundRobin k).phase 1 = .critical :=
  ⟨roundRobin_fair, rfl,
    tournament_starvation_free tournamentCreate_two duelWaiting_reachable roundRobin_fair
      (.inr rfl)⟩

end PetersonTournament
