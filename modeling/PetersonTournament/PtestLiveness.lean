import PetersonTournament.Ptest

/-!
# `ptest` runs to completion under fair scheduling

Under a schedule that runs both processes infinitely often, each process passes through the
critical section of every iteration, both exit with status 0, and the lock table is left as
`peterson_create` found it, except the lock, which `peterson_destroy` has reset. A process in the
wait loop gets through. Were it to wait forever, its wait condition would hold from then on, so
`turn` would stay with the other process. The other process would then pass its own wait, and
its `peterson_release` would lower the flag the waiter waits on.
-/

namespace PetersonTournament

namespace Ptest
variable (h : Fin nPetersonLocks)

/-- The states along an infinite schedule of the two processes; a process that cannot move (the
parent in `wait(0)`, or a process after `exit`) leaves the state as it is. -/
def exec (s : Ptest) (σ : Nat → Fin 2) : Nat → Ptest
  | 0 => s
  | k + 1 => ((exec s σ k).step h (σ k)).getD (exec s σ k)

/-- Both processes are scheduled infinitely often. -/
def Fair (σ : Nat → Fin 2) : Prop := ∀ r k, ∃ k' ≥ k, σ k' = r

variable {h}

section
variable {s : Ptest} {σ : Nat → Fin 2}

theorem exec_succ_of_step {k : Nat} {r : Fin 2} {s' : Ptest} (hr : σ k = r)
    (hs : (s.exec h σ k).step h r = some s') : s.exec h σ (k + 1) = s' := by
  rw [exec, hr, hs]
  rfl

theorem Reachable.exec {t₀ : PTable} (hs : Reachable h t₀ s) (σ : Nat → Fin 2) :
    ∀ k, Reachable h t₀ (s.exec h σ k)
  | 0 => hs
  | k + 1 => by
    cases e : (s.exec h σ k).step h (σ k) with
    | none => rw [Ptest.exec, e]; exact hs.exec σ k
    | some s' => rw [exec_succ_of_step rfl e]; exact (hs.exec σ k).step e

theorem exec_pc_of_ne {k : Nat} {r : Fin 2} (hk : σ k ≠ r) :
    (s.exec h σ (k + 1)).pc r = (s.exec h σ k).pc r := by
  cases e : (s.exec h σ k).step h (σ k) with
  | none => rw [Ptest.exec, e]; rfl
  | some s' => rw [exec_succ_of_step rfl e, step_pc_of_ne e (Ne.symm hk)]

theorem Fair.move (hf : Fair σ) (r : Fin 2) (j : Nat) :
    ∃ j' ≥ j, σ j' = r ∧ (s.exec h σ j').pc r = (s.exec h σ j).pc r :=
  exists_pick_of_stable (hf r) (Q := fun i => (s.exec h σ i).pc r = (s.exec h σ j).pc r)
    (fun _ _ hi hσ => (exec_pc_of_ne hσ).trans hi) rfl

theorem exec_exited {r : Fin 2} {st : Int} {j : Nat} (hp : (s.exec h σ j).pc r = .exited st) :
    ∀ k ≥ j, (s.exec h σ k).pc r = .exited st := by
  intro k hk
  induction k, hk using Nat.le_induction with
  | base => exact hp
  | succ k _ ih =>
    by_cases hσ : σ k = r
    · rw [Ptest.exec, hσ]
      simp [Ptest.step, ih]
    · rw [exec_pc_of_ne hσ, ih]

end

section
variable {t₀ : PTable} {s : Ptest} {σ : Nat → Fin 2}

/-- No move of the other process makes a spinning process's wait condition true. -/
theorem Inv.waitCondition_of_step (hi : Inv h t₀ s) {r q : Fin 2} {i : Nat}
    (hp : s.pc r = .spinning i) {s' : Ptest} (hs : s.step h q = some s') (hq : q ≠ r)
    (hc : waitCondition (s.ptable h) r = false) : waitCondition (s'.ptable h) r = false := by
  obtain rfl := eq_one_sub_of_ne hq
  cases hpq : s.pc (1 - r) with
  | acquiring i' =>
    rw [hi.step_acquiring hpq, Option.some.injEq] at hs
    subst hs
    simp
  | spinning i' =>
    rw [hi.step_spinning hpq, Option.some.injEq] at hs
    subst hs
    exact hc
  | critical i' =>
    rw [hi.step_critical hpq, Option.some.injEq] at hs
    subst hs
    simp
  | waiting f =>
    simp only [Ptest.step, hpq] at hs
    split at hs <;> cases hs
    exact hc
  | destroying f =>
    obtain ⟨h0, rfl⟩ : 1 - r = 0 ∧ f = false := by simpa [hpq, PtestPc.Ok] using hi.ok (1 - r)
    obtain rfl : r = 1 := by rw [← one_sub_one_sub r, h0]; rfl
    exact absurd (hi.child (.inl (h0 ▸ hpq))) (by rw [hp]; nofun)
  | exited st => simp [Ptest.step, hpq] at hs

variable (hf : Fair σ) (hR : ∀ j, Reachable h t₀ (s.exec h σ j))
include hf hR

theorem exec_release {r : Fin 2} {i j : Nat} (hp : (s.exec h σ j).pc r = .critical i) :
    ∃ j' ≥ j, (s.exec h σ j').pc r = .critical i ∧ s.exec h σ (j' + 1) =
      ⟨Function.update (s.exec h σ j').ptable h (withdraw ((s.exec h σ j').ptable h) r),
        Function.update (s.exec h σ j').pc r
          (if i + 1 < ptestIterations then .acquiring (i + 1) else .afterLoop r)⟩ := by
  obtain ⟨j', hj', hr, hp'⟩ := hf.move (h := h) (s := s) r j
  rw [hp] at hp'
  exact ⟨j', hj', hp', exec_succ_of_step hr ((hR j').inv.step_critical hp')⟩

theorem exec_spinning {r : Fin 2} {i j : Nat} (hp : (s.exec h σ j).pc r = .spinning i) :
    ∃ j' ≥ j, (s.exec h σ j').pc r = .critical i := by
  by_contra hno
  push_neg at hno
  -- the process spins from `j` on
  have spin : ∀ k ≥ j, (s.exec h σ k).pc r = .spinning i := by
    intro k hk
    induction k, hk using Nat.le_induction with
    | base => exact hp
    | succ k hk ih =>
      by_cases hσ : σ k = r
      · have hn := hno (k + 1) (by omega)
        rw [exec_succ_of_step hσ ((hR k).inv.step_spinning ih)] at hn ⊢
        by_cases hc : waitCondition ((s.exec h σ k).ptable h) r <;> simp [hc] at hn ⊢
      · rw [exec_pc_of_ne hσ, ih]
  -- so its wait condition holds from `j` on, or it would pass at its next move
  have cond : ∀ k ≥ j, waitCondition ((s.exec h σ k).ptable h) r = true := by
    intro k hk
    by_contra hc
    obtain ⟨k₁, hk₁, hσ, hc₁⟩ := exists_pick_of_stable (hf r)
      (Q := fun m => waitCondition ((s.exec h σ m).ptable h) r = false)
      (fun m hm hcm hσ => by
        cases e : (s.exec h σ m).step h (σ m) with
        | none => rwa [Ptest.exec, e]
        | some s' =>
          rw [exec_succ_of_step rfl e]
          exact (hR m).inv.waitCondition_of_step (spin m (by omega)) e hσ hcm)
      (Bool.eq_false_iff.2 hc)
    refine hno (k₁ + 1) (by omega) ?_
    rw [exec_succ_of_step hσ ((hR k₁).inv.step_spinning (spin k₁ (by omega)))]
    simp [hc₁]
  -- then `turn` stays with the other process and its flag stays up
  have held : ∀ k ≥ j, ((s.exec h σ k).ptable h).turn = 1 - r ∧
      ((s.exec h σ k).ptable h).flag (1 - r) = true := fun k hk => by
    simpa [waitCondition, and_comm] using cond k hk
  -- so the other process never reaches its `peterson_release`
  have out : ∀ k ≥ j, ∀ i', (s.exec h σ k).pc (1 - r) ≠ .critical i' := by
    intro k hk i' hc
    obtain ⟨k₁, hk₁, -, he⟩ := exec_release hf hR hc
    have := (held (k₁ + 1) (by omega)).2
    simp [he] at this
  -- nor passes its wait, where `turn` is on its side
  have hreg := (((hR j).toPair.inv.node ((hR j).inv.slot_active (by rw [spin j le_rfl]; nofun))).flag_iff
    (1 - r)).1 (held j le_rfl).2
  cases hq : (s.exec h σ j).pc (1 - r) with
  | spinning i' =>
    obtain ⟨k₁, hk₁, hσ, hq₁⟩ := hf.move (h := h) (s := s) (1 - r) j
    rw [hq] at hq₁
    refine out (k₁ + 1) (by omega) i' ?_
    rw [exec_succ_of_step hσ ((hR k₁).inv.step_spinning hq₁)]
    simp [waitCondition, (held k₁ (by omega)).1]
  | critical i' => exact out j le_rfl i' hq
  | _ => simp [Pair.reg, hq] at hreg

theorem exec_acquiring {r : Fin 2} {i j : Nat} (hp : (s.exec h σ j).pc r = .acquiring i) :
    ∃ j' ≥ j, (s.exec h σ j').pc r = .critical i := by
  obtain ⟨j₁, hj₁, hσ, hp₁⟩ := hf.move (h := h) (s := s) r j
  rw [hp] at hp₁
  have he := exec_succ_of_step hσ ((hR j₁).inv.step_acquiring hp₁)
  by_cases hc : waitCondition (announce ((s.exec h σ j₁).ptable h) r) r
  · obtain ⟨j₂, hj₂, h₂⟩ := exec_spinning hf hR (r := r) (i := i) (j := j₁ + 1)
      (by simp [he, hc])
    exact ⟨j₂, by omega, h₂⟩
  · exact ⟨j₁ + 1, by omega, by simp [he, hc]⟩

/-- A process at iteration `i` of the loop passes through the critical section of every
iteration from `i` on, and reaches the code after the loop. -/
theorem exec_loop {r : Fin 2} {i j : Nat} (hp : (s.exec h σ j).pc r = .acquiring i) :
    (∀ i', i ≤ i' → i' < ptestIterations → ∃ k ≥ j, (s.exec h σ k).pc r = .critical i') ∧
      ∃ k ≥ j, (s.exec h σ k).pc r = .afterLoop r := by
  obtain ⟨j₁, hj₁, h₁⟩ := exec_acquiring hf hR hp
  obtain ⟨j₂, hj₂, -, he⟩ := exec_release hf hR h₁
  have h₂ := congrArg (fun s' : Ptest => s'.pc r) he
  simp only [Function.update_same] at h₂
  split at h₂
  · obtain ⟨hall, k, hk, hend⟩ := exec_loop h₂
    refine ⟨fun i' h1 h2 => ?_, k, by omega, hend⟩
    rcases Nat.eq_or_lt_of_le h1 with rfl | hlt
    · exact ⟨j₁, hj₁, h₁⟩
    · obtain ⟨k', hk', h'⟩ := hall i' hlt h2
      exact ⟨k', by omega, h'⟩
  · exact ⟨fun i' h1 h2 => ⟨j₁, hj₁, by rwa [show i' = i by omega]⟩, j₂ + 1, by omega, h₂⟩
termination_by ptestIterations - i

theorem exec_parent_exits {j : Nat} (hp : (s.exec h σ j).pc 0 = .waiting false ∨
      (s.exec h σ j).pc 0 = .destroying false ∨ (s.exec h σ j).pc 0 = .exited 0)
    (hc : ∀ k ≥ j, (s.exec h σ k).pc 1 = .exited 0) :
    ∃ k ≥ j, (s.exec h σ k).pc 0 = .exited 0 := by
  have destroys : ∀ j₁ ≥ j, (s.exec h σ j₁).pc 0 = .destroying false →
      ∃ k ≥ j, (s.exec h σ k).pc 0 = .exited 0 := fun j₁ hj₁ hd => by
    obtain ⟨j₂, hj₂, hσ, hp₂⟩ := hf.move (h := h) (s := s) 0 j₁
    rw [hd] at hp₂
    exact ⟨j₂ + 1, by omega, by simp [exec_succ_of_step hσ ((hR j₂).inv.step_destroying hp₂)]⟩
  rcases hp with hw | hd | hx
  · obtain ⟨j₁, hj₁, hσ, hp₁⟩ := hf.move (h := h) (s := s) 0 j
    rw [hw] at hp₁
    exact destroys (j₁ + 1) (by omega)
      (by simp [exec_succ_of_step hσ (step_waiting hp₁ (hc j₁ hj₁))])
  · exact destroys j le_rfl hd
  · exact ⟨j, le_rfl, hx⟩

omit hf in
theorem exec_past_loop {j : Nat} (hp : (s.exec h σ j).pc 0 = .waiting false) :
    ∀ k ≥ j, (s.exec h σ k).pc 0 = .waiting false ∨ (s.exec h σ k).pc 0 = .destroying false ∨
      (s.exec h σ k).pc 0 = .exited 0 := by
  intro k hk
  induction k, hk using Nat.le_induction with
  | base => exact .inl hp
  | succ k _ ih =>
    by_cases hσ : σ k = 0
    · cases e : (s.exec h σ k).step h 0 with
      | none => rw [Ptest.exec, hσ, e]; exact ih
      | some s' =>
        rw [exec_succ_of_step hσ e]
        rcases ih with hw | hd | hx
        · simp only [Ptest.step, hw] at e
          split at e <;> cases e
          simp
        · simp [(hR k).inv.step_destroying hd] at e
          simp [← e]
        · simp [Ptest.step, hx] at e
    · rwa [exec_pc_of_ne hσ]

end

end Ptest

/-- `main` runs to completion under any schedule that runs both processes infinitely often:
each process passes through the critical section of every one of its `ptestIterations`
iterations, both reach `exit(0)`, and the lock table is then the one `peterson_create` was
called on, with the lock's slot reset by `peterson_destroy`. -/
theorem ptest_terminates {t₀ : PTable} {h : Fin nPetersonLocks}
    (hc : (sysPetersonCreate t₀).1 = (h : Nat)) {σ : Nat → Fin 2} (hf : Ptest.Fair σ) :
    (∀ r, ∀ i < ptestIterations, ∃ k, ((Ptest.start t₀).exec h σ k).pc r = .critical i) ∧
      ∃ k, (∀ r, ((Ptest.start t₀).exec h σ k).pc r = .exited 0) ∧
        ((Ptest.start t₀).exec h σ k).ptable = Function.update t₀ h PetersonLock.unused := by
  have hR := (Ptest.Reachable.start hc).exec σ
  have loop := fun r => Ptest.exec_loop hf hR (r := r) (i := 0) (j := 0) rfl
  refine ⟨fun r i hi => (loop r).1 i (Nat.zero_le i) hi |>.imp fun _ => And.right, ?_⟩
  obtain ⟨kc, -, hkc⟩ := (loop 1).2
  obtain ⟨kp, -, hkp⟩ := (loop 0).2
  have child := Ptest.exec_exited (h := h) hkc
  obtain ⟨k, hk, hx⟩ := Ptest.exec_parent_exits hf hR
    (Ptest.exec_past_loop hR hkp (max kp kc) (le_max_left _ _)) fun k hk => child k (by omega)
  refine ⟨k, fun r => ?_, funext fun q => ?_⟩
  · rcases Ptest.role_cases r with rfl | rfl
    · exact hx
    · exact child k (by omega)
  · by_cases hq : q = h
    · subst hq
      simpa using (hR k).inv.freed hx
    · simpa [Function.update_noteq hq] using (hR k).inv.frame q hq

theorem alternate_fair : Ptest.Fair alternate := alternate_visits

theorem ptest_terminates_alternating :
    Ptest.Fair alternate ∧
      (∀ r, ∀ i < ptestIterations, ∃ k,
        ((Ptest.start petersonInit).exec 0 alternate k).pc r = .critical i) ∧
      ∃ k, (∀ r, ((Ptest.start petersonInit).exec 0 alternate k).pc r = .exited 0) ∧
        ((Ptest.start petersonInit).exec 0 alternate k).ptable =
          Function.update petersonInit 0 PetersonLock.unused :=
  ⟨alternate_fair, ptest_terminates (by decide) alternate_fair⟩

end PetersonTournament
