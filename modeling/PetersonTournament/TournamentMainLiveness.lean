import PetersonTournament.TournamentMain

/-!
# `tournament` terminates

Under a schedule that runs every process infinitely often, every process of `tournament` passes
its critical section and calls `exit(0)`. A process gets to its critical section by the tree's
starvation freedom, run on the moves of `Tournament` that its steps are
(`TournamentMain.exec_toTournament`, `TournamentMain.fair_move`); `tournament_release` then takes
one step per level. A child exits next; once all have, each `wait` call of the original process
collects one, and it exits too.
-/

namespace PetersonTournament

namespace TournamentMain

section
variable {n : Nat} {g : Globals} {s : TournamentMain n} {σ : Nat → Fin n}

theorem exec_pc_of_ne {k : Nat} {p : Fin n} (hσ : σ k ≠ p) :
    (s.exec g σ (k + 1)).pc p = (s.exec g σ k).pc p := by
  cases h : (s.exec g σ k).step g (σ k) with
  | none => rw [exec_succ_of_none h]
  | some s' => rw [exec_succ_of_step h, step_pc_of_ne h (Ne.symm hσ)]

theorem exec_pc_stable {P : MainPc → Prop}
    (hP : ∀ {s s' : TournamentMain n} {p : Fin n}, s.step g p = some s' → P (s.pc p) →
      P (s'.pc p))
    {q : Fin n} {j j' : Nat} (hq : P ((s.exec g σ j).pc q)) (hj : j ≤ j') :
    P ((s.exec g σ j').pc q) := by
  induction j', hj using Nat.le_induction with
  | base => exact hq
  | succ k _ ih =>
    by_cases hk : σ k = q
    · cases h : (s.exec g σ k).step g (σ k) with
      | none => rwa [exec_succ_of_none h]
      | some s' =>
        rw [exec_succ_of_step h]
        subst hk
        exact hP h ih
    · rwa [exec_pc_of_ne hk]

theorem exec_next (hf : ∀ p k, ∃ k' ≥ k, σ k' = p) {p : Fin n} {x : MainPc} {j : Nat}
    (hp : (s.exec g σ j).pc p = x) : ∃ j₁ ≥ j, σ j₁ = p ∧ (s.exec g σ j₁).pc p = x :=
  exists_pick_of_stable (hf p) (fun _ _ hi hσ => (exec_pc_of_ne hσ).trans hi) hp

theorem exec_cycle {k : Nat} {p : Fin n} {ph ph' : Phase} {t : PTable} (hσ : σ k = p)
    (hp : (s.exec g σ k).pc p = .cycle ph)
    (h : participantStep (g.child p) (s.exec g σ k).ptable ph = some (ph', t)) :
    (s.exec g σ (k + 1)).pc p = MainPc.ofPhase ph' := by
  rw [exec, hσ]
  simp only [step, hp, h, Option.map_some', Option.getD_some, Function.update_same]

theorem exec_released {k : Nat} {p : Fin n} (hσ : σ k = p)
    (hp : (s.exec g σ k).pc p = .released) :
    (s.exec g σ (k + 1)).pc p = if (p : Nat) = 0 then .reaping 0 else .exited 0 := by
  rw [exec, hσ]
  simp only [step, hp, Option.getD_some, Function.update_same]

theorem exec_collects {k i : Nat} {p : Fin n} (hσ : σ k = p)
    (hp : (s.exec g σ k).pc p = .reaping i) (hi : i < n - 1)
    (hw : (s.exec g σ k).wait = .collects) : (s.exec g σ (k + 1)).pc p = .reaping (i + 1) := by
  rw [exec, hσ]
  simp only [step, hp, hi, hw, if_true, Option.getD_some, Function.update_same]

theorem exec_loop_end {k i : Nat} {p : Fin n} (hσ : σ k = p)
    (hp : (s.exec g σ k).pc p = .reaping i) (hi : ¬ i < n - 1) :
    (s.exec g σ (k + 1)).pc p = .exited 0 := by
  rw [exec, hσ]
  simp only [step, hp, hi, if_false, Option.getD_some, Function.update_same]

/-- The moves of `Tournament` that a run's steps are schedule every participant infinitely often
when the run schedules every process so: a process that has returned from `tournament_release`
leaves the tournament at its next step, for good. -/
theorem fair_move (hf : ∀ p k, ∃ k' ≥ k, σ k' = p) :
    Tournament.Fair fun j => (s.exec g σ j).move (σ j) := by
  intro p k
  obtain ⟨k₁, hk₁, hσ₁⟩ := hf p k
  by_cases hr : (s.exec g σ k₁).pc p = .released
  · obtain ⟨k₂, hk₂, hσ₂⟩ := hf p (k₁ + 1)
    have hd : ((s.exec g σ k₂).pc p).isDone :=
      exec_pc_stable (P := fun x => x.isDone = true) step_isDone
        (by rw [exec_released hσ₁ hr]; split <;> rfl) hk₂
    have hne : (s.exec g σ k₂).pc p ≠ .released := fun h => by simp [h, MainPc.isDone] at hd
    exact ⟨k₂, by omega, by simp only [move, hσ₂, if_neg hne]⟩
  · exact ⟨k₁, hk₁, by simp only [move, hσ₁, if_neg hr]⟩

theorem Inv.isExited_of_isDone (hi : s.Inv) {q : Fin n} (hq : (q : Nat) ≠ 0)
    (hd : (s.pc q).isDone) : (s.pc q).isExited := by
  cases h : s.pc q with
  | reaping i => exact absurd (hi.reaper q i h).1 hq
  | exited st => rfl
  | _ => simp [h, MainPc.isDone] at hd

end

section
variable {c : Config} {t : PTable} {s : TournamentMain (2 ^ c.levels)}
  {σ : Nat → Fin (2 ^ c.levels)} (ht : ∀ i ∈ c.slots, t i = PetersonLock.fresh)
  (hs : Reachable (c.globals 0) t s) (hf : ∀ p k, ∃ k' ≥ k, σ k' = p)
include ht hs hf

omit hf in
theorem treeInv_exec (j : Nat) : TreeInv c (s.exec (c.globals 0) σ j).toTournament :=
  (hs.exec σ j).toTournament.treeInv ht

/-- A process inside `tournament_acquire` gets to its critical section: the tree's starvation
freedom, run on the moves of `Tournament` that the program's steps are. -/
theorem exec_acquire {l j : Nat} {p : Fin (2 ^ c.levels)}
    (hp : (s.exec (c.globals 0) σ j).pc p = .cycle (.acquiring l)) :
    ∃ j' ≥ j, (s.exec (c.globals 0) σ j').pc p = .cycle .critical := by
  have he := exec_toTournament (g := c.globals 0) s σ
  obtain ⟨j', hj', h⟩ := exec_critical (fair_move hf) (fun j => he j ▸ treeInv_exec ht hs j) l p j
    (.inl (by rw [← he, toTournament_phase, hp]; rfl))
  exact ⟨j', hj', MainPc.phase_eq_critical.1 (by rw [← toTournament_phase, he]; exact h)⟩

theorem exec_releasing {m j : Nat} {p : Fin (2 ^ c.levels)}
    (hp : (s.exec (c.globals 0) σ j).pc p = .cycle (.releasing m)) :
    ∃ j' ≥ j, (s.exec (c.globals 0) σ j').pc p = .released := by
  obtain ⟨j₁, hj₁, hσ, hp₁⟩ := exec_next hf hp
  have hT := treeInv_exec ht hs (σ := σ) j₁
  have hm : m < c.levels := by simpa [hp₁, Phase.inRange, MainPc.phase] using hT.inRange p
  have h₁ := exec_cycle hσ hp₁ (participantStep_releasing_of_active c p.2 hm
    (hT.active _ (arrayIdx_lt_nodes p.2 hm)))
  by_cases hl : m + 1 < c.levels
  · rw [if_pos hl] at h₁
    obtain ⟨j', hj', h⟩ := exec_releasing h₁
    exact ⟨j', by omega, h⟩
  · rw [if_neg hl] at h₁
    exact ⟨j₁ + 1, by omega, h₁⟩
termination_by c.levels - m

theorem exec_critical_released {j : Nat} {p : Fin (2 ^ c.levels)}
    (hp : (s.exec (c.globals 0) σ j).pc p = .cycle .critical) :
    ∃ j' ≥ j, (s.exec (c.globals 0) σ j').pc p = .released := by
  obtain ⟨j₁, hj₁, hσ, hp₁⟩ := exec_next hf hp
  have h₁ := exec_cycle hσ hp₁ (participantStep_critical c)
  by_cases hL : c.levels = 0
  · rw [if_pos hL] at h₁
    exact ⟨j₁ + 1, by omega, h₁⟩
  · rw [if_neg hL] at h₁
    obtain ⟨j', hj', h⟩ := exec_releasing ht hs hf h₁
    exact ⟨j', by omega, h⟩

theorem exec_idle {j : Nat} {p : Fin (2 ^ c.levels)}
    (hp : (s.exec (c.globals 0) σ j).pc p = .cycle .idle) :
    ∃ j' ≥ j, (s.exec (c.globals 0) σ j').pc p = .cycle .critical := by
  obtain ⟨j₁, hj₁, hσ, hp₁⟩ := exec_next hf hp
  have h₁ := exec_cycle hσ hp₁ (participantStep_idle c)
  by_cases hL : c.levels = 0
  · rw [if_pos hL] at h₁
    exact ⟨j₁ + 1, by omega, h₁⟩
  · rw [if_neg hL] at h₁
    obtain ⟨j', hj', h⟩ := exec_acquire ht hs hf h₁
    exact ⟨j', by omega, h⟩

theorem exec_done {j : Nat} {p : Fin (2 ^ c.levels)}
    (hp : (s.exec (c.globals 0) σ j).pc p = .cycle .idle) :
    ∃ j' ≥ j, ((s.exec (c.globals 0) σ j').pc p).isDone := by
  obtain ⟨j₁, hj₁, h₁⟩ := exec_idle ht hs hf hp
  obtain ⟨j₂, hj₂, h₂⟩ := exec_critical_released ht hs hf h₁
  obtain ⟨j₃, hj₃, hσ, h₃⟩ := exec_next hf h₂
  exact ⟨j₃ + 1, by omega, by rw [exec_released hσ h₃]; split <;> rfl⟩

omit ht in
/-- Once every child has exited, the original process runs through its loop of `wait` calls,
each of which collects a child, and exits. -/
theorem exec_reaping {K : Nat}
    (hK : ∀ q : Fin (2 ^ c.levels), (q : Nat) ≠ 0 → ((s.exec (c.globals 0) σ K).pc q).isExited)
    {i j : Nat} (hj : K ≤ j) {p : Fin (2 ^ c.levels)}
    (hp : (s.exec (c.globals 0) σ j).pc p = .reaping i) :
    ∃ j' ≥ j, (s.exec (c.globals 0) σ j').pc p = .exited 0 := by
  obtain ⟨j₁, hj₁, hσ, hp₁⟩ := exec_next hf hp
  obtain ⟨-, hc⟩ := (hs.exec σ j₁).inv.reaper p i hp₁
  by_cases hlt : i < 2 ^ c.levels - 1
  · have hall := exitedChildren_eq _ fun q hq =>
      exec_pc_stable (P := fun x => x.isExited = true) step_isExited (hK q hq) (hj.trans hj₁)
    have hw : (s.exec (c.globals 0) σ j₁).wait = .collects := by
      rw [wait, if_pos (by rw [hc, hall]; exact hlt)]
    obtain ⟨j', hj', h⟩ := exec_reaping hK (by omega) (exec_collects hσ hp₁ hlt hw)
    exact ⟨j', by omega, h⟩
  · exact ⟨j₁ + 1, by omega, exec_loop_end hσ hp₁ hlt⟩
termination_by 2 ^ c.levels - 1 - i

end

end TournamentMain

/-- Under a schedule that runs every process infinitely often, every process of `tournament`
gets to its critical section, and a point comes where all of them have called `exit(0)`. -/
theorem tournament_main_terminates {n : Int} {g₀ g : Globals} {t₀ t : PTable}
    (hc : tournamentCreate n g₀ t₀ = (0, g, t)) {σ : Nat → Fin g.nProcesses}
    (hf : ∀ p k, ∃ k' ≥ k, σ k' = p) :
    (∀ p, ∃ k, ((TournamentMain.start t).exec g σ k).pc p = .cycle .critical) ∧
      ∃ k, ∀ p, ((TournamentMain.start t).exec g σ k).pc p = .exited 0 := by
  obtain ⟨c, rfl, ht⟩ := tournamentCreate_config hc
  have hs : TournamentMain.Reachable (c.globals 0) t
    (TournamentMain.start t : TournamentMain (2 ^ c.levels)) := .start
  refine ⟨fun p => (TournamentMain.exec_idle ht hs hf (j := 0) rfl).imp fun _ h => h.2, ?_⟩
  -- a point where every process is past `tournament_release`, and every child has exited
  choose kd hkd using fun p => TournamentMain.exec_done ht hs hf (p := p) (j := 0) rfl
  have hK : ∀ p, (((TournamentMain.start t).exec (c.globals 0) σ
      (Finset.univ.sup kd)).pc p).isDone := fun p =>
    TournamentMain.exec_pc_stable (P := fun x => x.isDone = true) TournamentMain.step_isDone
      (hkd p).2 (Finset.le_sup (Finset.mem_univ p))
  have hchild := fun q hq => (hs.exec σ _).inv.isExited_of_isDone hq (hK q)
  -- then the original process exits
  let p₀ : Fin (2 ^ c.levels) := ⟨0, Nat.two_pow_pos _⟩
  obtain ⟨k, hk, h₀⟩ : ∃ k ≥ Finset.univ.sup kd,
      ((TournamentMain.start t).exec (c.globals 0) σ k).pc p₀ = .exited 0 := by
    have hd := hK p₀
    cases h : ((TournamentMain.start t).exec (c.globals 0) σ (Finset.univ.sup kd)).pc p₀ with
    | reaping i => exact TournamentMain.exec_reaping hs hf hchild le_rfl h
    | exited st =>
      exact ⟨_, le_rfl, TournamentMain.eq_exited_zero (TournamentMain.treeInv_exec ht hs _)
        (by simp [h, MainPc.isExited])⟩
    | _ => simp [h, MainPc.isDone] at hd
  refine ⟨k, fun q => ?_⟩
  by_cases hq : (q : Nat) = 0
  · obtain rfl : q = p₀ := Fin.ext hq
    exact h₀
  · exact TournamentMain.eq_exited_zero (TournamentMain.treeInv_exec ht hs k)
      (TournamentMain.exec_pc_stable (P := fun x => x.isExited = true)
        TournamentMain.step_isExited (hchild q hq) hk)

theorem tournament_main_terminates_duel :
    (∀ p k, ∃ k' ≥ k, alternate k' = p) ∧
      (∀ p, ∃ k, ((TournamentMain.start duelTable).exec duelGlobals alternate k).pc p =
        .cycle .critical) ∧
      ∃ k, ∀ p, ((TournamentMain.start duelTable).exec duelGlobals alternate k).pc p = .exited 0 :=
  ⟨alternate_visits, tournament_main_terminates tournamentCreate_two alternate_visits⟩

end PetersonTournament
