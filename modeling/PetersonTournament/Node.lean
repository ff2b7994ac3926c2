import PetersonTournament.Lock

/-!
# The Peterson invariant of one lock

A lock's view of its two users: `reg r` when the process with role `r` has set its flag (it
waits in `sys_peterson_acquire` or holds the lock), `held r` when it has passed the wait. Each
client below (two processes on one slot, the tournament tree) says what these are for its own
states and gets the invariant's preservation from the four lemmas here, one per write the
protocol makes.
-/

namespace PetersonTournament

@[simp] theorem one_sub_one_sub (r : Fin 2) : 1 - (1 - r) = r := by
  revert r; decide

@[simp] theorem one_sub_ne (r : Fin 2) : 1 - r ≠ r := by
  revert r; decide

@[simp] theorem ne_one_sub (r : Fin 2) : r ≠ 1 - r := fun h => one_sub_ne r h.symm

theorem eq_or_eq_one_sub (x r : Fin 2) : x = r ∨ x = 1 - r := by
  revert x r; decide

theorem eq_one_sub_of_ne {x r : Fin 2} (h : x ≠ r) : x = 1 - r :=
  (eq_or_eq_one_sub x r).resolve_left h

@[simp] theorem waitCondition_withdraw_other (pl : PetersonLock) (r : Fin 2) :
    waitCondition (withdraw pl (1 - r)) r = false := by
  simp [waitCondition]

@[simp] theorem waitCondition_announce_other (pl : PetersonLock) (r : Fin 2) :
    waitCondition (announce pl (1 - r)) r = false := by
  simp [waitCondition]

/-- The two-role invariant of a lock, relative to who has registered and who holds it. -/
structure NodeInv (pl : PetersonLock) (reg held : Fin 2 → Prop) : Prop where
  held_reg : ∀ r, held r → reg r
  flag_iff : ∀ r, pl.flag r = true ↔ reg r
  turn_eq : ∀ r, held r → reg (1 - r) → pl.turn = r

section
variable {pl : PetersonLock} {reg held reg' held' : Fin 2 → Prop} {r : Fin 2}

/-- Mutual exclusion at one lock. -/
theorem NodeInv.not_held_both (h : NodeInv pl reg held) (h1 : held r) (h2 : held (1 - r)) :
    False := by
  have e1 := h.turn_eq r h1 (h.held_reg _ h2)
  have e2 := h.turn_eq (1 - r) h2 (by simpa using h.held_reg r h1)
  exact one_sub_ne r (e2.symm.trans e1)

theorem NodeInv.of_iff (h : NodeInv pl reg held) (hreg : ∀ x, reg' x ↔ reg x)
    (hheld : ∀ x, held' x ↔ held x) : NodeInv pl reg' held' where
  held_reg x hx := (hreg x).2 (h.held_reg x ((hheld x).1 hx))
  flag_iff x := (h.flag_iff x).trans (hreg x).symm
  turn_eq x hx hr := h.turn_eq x ((hheld x).1 hx) ((hreg _).1 hr)

theorem nodeInv_idle (hf : ∀ x, pl.flag x = false) (hreg : ∀ x, ¬ reg x) (hheld : ∀ x, ¬ held x) :
    NodeInv pl reg held where
  held_reg x hx := absurd hx (hheld x)
  flag_iff x := by simp [hf x, hreg x]
  turn_eq x hx := absurd hx (hheld x)

theorem NodeInv.announce (h : NodeInv pl reg held) (hr : ¬ reg r)
    (hreg : ∀ x, reg' x ↔ reg x ∨ x = r)
    (hheld : ∀ x, held' x ↔ held x ∨ (x = r ∧ waitCondition (announce pl r) r = false)) :
    NodeInv (announce pl r) reg' held' where
  held_reg x hx := by
    rcases (hheld x).1 hx with hx | ⟨rfl, -⟩
    · exact (hreg x).2 (.inl (h.held_reg x hx))
    · exact (hreg x).2 (.inr rfl)
  flag_iff x := by
    rw [hreg x]
    by_cases hx : x = r
    · subst hx; simp
    · simp [Function.update_noteq hx, h.flag_iff x, hx]
  turn_eq x hx hx' := by
    rcases (hheld x).1 hx with hx | ⟨rfl, hw⟩
    · have hxr : x ≠ r := fun e => hr (e ▸ h.held_reg x hx)
      simp [eq_one_sub_of_ne hxr]
    · rcases (hreg _).1 hx' with hx' | hx'
      · simp [waitCondition, Function.update_noteq (one_sub_ne x), (h.flag_iff _).2 hx'] at hw
      · exact absurd hx' (one_sub_ne x)

theorem NodeInv.pass (h : NodeInv pl reg held) (hw : waitCondition pl r = false) (hr : reg r)
    (hreg : ∀ x, reg' x ↔ reg x) (hheld : ∀ x, held' x ↔ held x ∨ x = r) :
    NodeInv pl reg' held' where
  held_reg x hx := by
    rw [hreg]
    rcases (hheld x).1 hx with hx | rfl
    · exact h.held_reg x hx
    · exact hr
  flag_iff x := (h.flag_iff x).trans (hreg x).symm
  turn_eq x hx hx' := by
    rw [hreg] at hx'
    rcases (hheld x).1 hx with hx | rfl
    · exact h.turn_eq x hx hx'
    · simp only [waitCondition, (h.flag_iff _).2 hx', Bool.true_and, beq_eq_false_iff_ne] at hw
      exact (eq_or_eq_one_sub _ x).resolve_right hw

theorem NodeInv.withdraw (h : NodeInv pl reg held) (hreg : ∀ x, reg' x ↔ reg x ∧ x ≠ r)
    (hheld : ∀ x, held' x ↔ held x ∧ x ≠ r) : NodeInv (withdraw pl r) reg' held' where
  held_reg x hx := by
    rw [hheld] at hx
    exact (hreg x).2 ⟨h.held_reg x hx.1, hx.2⟩
  flag_iff x := by
    rw [hreg x]
    by_cases hx : x = r
    · subst hx; simp
    · simp [Function.update_noteq hx, h.flag_iff x, hx]
  turn_eq x hx hx' := h.turn_eq x ((hheld x).1 hx).1 ((hreg _).1 hx').1

end

end PetersonTournament
