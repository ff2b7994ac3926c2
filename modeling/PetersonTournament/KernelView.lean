import PetersonTournament.Pool
import PetersonTournament.Tournament

/-!
# The tournament seen from the kernel

Each step of a participant is, for the kernel of `Pool`, one system call made by that
participant or no call at all; so every state of a tournament started on a fresh table maps to
a reachable state of the kernel model.
-/

namespace PetersonTournament

/-- The slot and role a participant in phase `ph` waits on inside `sys_peterson_acquire`. -/
def Phase.waitsOn (g : Globals) : Phase → Option (Fin nPetersonLocks × Fin 2)
  | .waiting l => validLockArgs (g.lockIdAt l) (g.roleAt l)
  | _ => none

/-- The call into the kernel that the next step of a participant in phase `ph` makes, if any. -/
def Phase.call (g : Globals) : Phase → Option Call
  | .acquiring l => if g.outOfBounds l then none else some (.acquire (g.lockIdAt l) (g.roleAt l))
  | .waiting _ => some .recheck
  | .releasing l => if g.outOfBounds l then none else some (.release (g.lockIdAt l) (g.roleAt l))
  | _ => none

theorem Phase.waitsOn_eq_none {g : Globals} {ph : Phase} (h : ∀ l, ph ≠ .waiting l) :
    ph.waitsOn g = none := by
  cases ph <;> simp_all [Phase.waitsOn]

theorem afterAcquire_waitsOn (g : Globals) (l : Nat) (o : AcquireOutcome) :
    (afterAcquire l o).waitsOn g =
      if o = .spin then validLockArgs (g.lockIdAt l) (g.roleAt l) else none := by
  by_cases h0 : l = 0 <;> cases o <;> simp [afterAcquire, Phase.waitsOn, h0]

namespace Tournament
variable {n : Nat} (g : Globals)

/-- The kernel's view of a tournament: the lock table, and the wait loop each participant is in. -/
def kernel (s : Tournament n) : Kernel (Fin n) :=
  ⟨s.ptable, fun p => (s.phase p).waitsOn (g.child p)⟩

/-- Every participant in a wait loop entered it with arguments the kernel accepted. -/
def WaitValid (s : Tournament n) : Prop :=
  ∀ p l, s.phase p = .waiting l →
    (validLockArgs ((g.child p).lockIdAt l) ((g.child p).roleAt l)).isSome

variable {g}

theorem kernel_update (s : Tournament n) (p : Fin n) (t : PTable) (ph : Phase) :
    (⟨t, Function.update s.phase p ph⟩ : Tournament n).kernel g =
      ⟨t, Function.update (s.kernel g).waiting p (ph.waitsOn (g.child p))⟩ := by
  simp only [kernel, Kernel.mk.injEq, true_and]
  funext q
  by_cases hq : q = p
  · subst hq
    simp
  · simp [Function.update_noteq hq]

theorem kernel_local {s : Tournament n} {p : Fin n} (ph : Phase)
    (hp : (s.phase p).waitsOn (g.child p) = none) (hph : ph.waitsOn (g.child p) = none) :
    (⟨s.ptable, Function.update s.phase p ph⟩ : Tournament n).kernel g = s.kernel g := by
  rw [kernel_update, hph]
  change (⟨s.ptable, Function.update (s.kernel g).waiting p none⟩ : Kernel (Fin n)) = s.kernel g
  rw [← hp]
  exact congrArg _ (Function.update_eq_self p _)

theorem kernel_step {s s' : Tournament n} {p : Fin n} (hv : s.WaitValid g)
    (h : s.step g (.run p) = some s') :
    s'.kernel g =
      ((s.phase p).call (g.child p)).elim (s.kernel g) fun c => ((s.kernel g).step p c).1 := by
  obtain ⟨⟨ph, t⟩, hst, rfl⟩ := Option.map_eq_some'.1 h
  cases hs : s.phase p with
  | idle =>
    simp only [hs, participantStep, Option.some.injEq, Prod.mk.injEq] at hst
    obtain ⟨rfl, rfl⟩ := hst
    refine kernel_local _ (by rw [hs]; rfl) (Phase.waitsOn_eq_none fun l => ?_)
    split <;> (try split) <;> simp
  | critical =>
    simp only [hs, participantStep, Option.some.injEq, Prod.mk.injEq] at hst
    obtain ⟨rfl, rfl⟩ := hst
    refine kernel_local _ (by rw [hs]; rfl) (Phase.waitsOn_eq_none fun l => ?_)
    split <;> (try split) <;> simp
  | acquiring l =>
    have hw : (s.kernel g).waiting p = none := by simp [kernel, hs, Phase.waitsOn]
    by_cases hb : (g.child p).outOfBounds l
    · simp only [hs, participantStep, hb, if_true, Option.some.injEq, Prod.mk.injEq] at hst
      obtain ⟨rfl, rfl⟩ := hst
      simp only [Phase.call, hb, if_true, Option.elim_none]
      exact kernel_local _ (by rw [hs]; rfl) rfl
    · simp only [hs, participantStep, hb, Bool.false_eq_true, if_false, Option.some.injEq,
        Prod.mk.injEq] at hst
      obtain ⟨rfl, rfl⟩ := hst
      simp only [Phase.call, hb, Bool.false_eq_true, if_false, Option.elim_some]
      rw [Kernel.step_of_none hw, Kernel.issue, kernel_update, afterAcquire_waitsOn]
      rfl
  | waiting l =>
    obtain ⟨⟨i, r⟩, hir⟩ := Option.isSome_iff_exists.1 (hv p l hs)
    have hw : (s.kernel g).waiting p = some (i, r) := by simp [kernel, hs, Phase.waitsOn, hir]
    simp only [hs, participantStep, Globals.recheckAt, hir, Option.some.injEq,
      Prod.mk.injEq] at hst
    obtain ⟨rfl, rfl⟩ := hst
    simp only [Phase.call, Option.elim_some, Kernel.step, hw]
    rw [kernel_update, afterAcquire_waitsOn, hir]
    congr 2
  | releasing l =>
    have hw : (s.kernel g).waiting p = none := by simp [kernel, hs, Phase.waitsOn]
    by_cases hb : (g.child p).outOfBounds l
    · simp only [hs, participantStep, hb, if_true, Option.some.injEq, Prod.mk.injEq] at hst
      obtain ⟨rfl, rfl⟩ := hst
      simp only [Phase.call, hb, if_true, Option.elim_none]
      exact kernel_local _ (by rw [hs]; rfl) rfl
    · simp only [hs, participantStep, hb, Bool.false_eq_true, if_false, Option.some.injEq,
        Prod.mk.injEq] at hst
      obtain ⟨rfl, rfl⟩ := hst
      simp only [Phase.call, hb, Bool.false_eq_true, if_false, Option.elim_some]
      rw [Kernel.step_of_none hw, Kernel.issue, kernel_update,
        Phase.waitsOn_eq_none fun l' => by split_ifs <;> simp]
      exact congrArg _ (Function.update_eq_self_iff.2 hw.symm)
  | failed => simp [hs, participantStep] at hst
  | exited => simp [hs, participantStep] at hst

theorem WaitValid.step {s s' : Tournament n} {m : TournamentMove n} (hv : s.WaitValid g)
    (h : s.step g m = some s') : s'.WaitValid g := by
  cases m with
  | run p =>
    obtain ⟨⟨ph, t⟩, hst, rfl⟩ := Option.map_eq_some'.1 h
    intro q l hq
    dsimp only at hq
    by_cases hqp : q = p
    · subst hqp
      simp only [Function.update_same] at hq
      subst hq
      cases hs : s.phase q with
      | acquiring l' =>
        simp only [hs, participantStep] at hst
        split_ifs at hst <;> simp only [Option.some.injEq, Prod.mk.injEq] at hst
        · cases hst.1
        · obtain ⟨ho, rfl⟩ := afterAcquire_eq_waiting.1 hst.1
          exact sysPetersonAcquire_spin ho
      | waiting l' =>
        simp only [hs, participantStep, Option.some.injEq, Prod.mk.injEq] at hst
        obtain ⟨-, rfl⟩ := afterAcquire_eq_waiting.1 hst.1
        exact hv q l' hs
      | idle | critical =>
        simp only [hs, participantStep, Option.some.injEq, Prod.mk.injEq] at hst
        revert hst
        split <;> (try split) <;> simp
      | releasing l' =>
        simp only [hs, participantStep] at hst
        split_ifs at hst <;> simp at hst
      | failed | exited => simp [hs, participantStep] at hst
    · rw [Function.update_noteq hqp] at hq
      exact hv q l hq
  | exit p =>
    simp only [Tournament.step] at h
    split_ifs at h
    cases h
    intro q l hq
    dsimp only at hq
    by_cases hqp : q = p
    · subst hqp
      simp at hq
    · rw [Function.update_noteq hqp] at hq
      exact hv q l hq

theorem Reachable.kernel {t₀ : PTable} (h₀ : (⟨t₀, fun _ => none⟩ : Kernel (Fin n)).Reachable)
    {s : Tournament n} (hs : Reachable g t₀ s) : s.WaitValid g ∧ (s.kernel g).Reachable := by
  induction hs with
  | init => exact ⟨fun _ _ h => (nomatch h), h₀⟩
  | @step s s' m _ h ih =>
    refine ⟨ih.1.step h, ?_⟩
    cases m with
    | run p =>
      rw [kernel_step ih.1 h]
      cases (s.phase p).call (g.child p) with
      | none => exact ih.2
      | some c => exact ih.2.step p c
    | exit p =>
      simp only [Tournament.step] at h
      split_ifs at h with hp
      cases h
      rw [kernel_local .exited (by rw [hp]; rfl) rfl]
      exact ih.2

end Tournament

theorem createLocks_reachable {P : Type} [DecidableEq P] (p : P) :
    ∀ (k : Nat) (t : PTable), (⟨t, fun _ => none⟩ : Kernel P).Reachable →
      (⟨(createLocks t k).2.2, fun _ => none⟩ : Kernel P).Reachable
  | 0, _, h => h
  | k + 1, t, h => by
    have h₁ : (⟨(sysPetersonCreate t).2, fun _ => none⟩ : Kernel P).Reachable :=
      Kernel.Reachable.step p .create h
    rw [createLocks]
    split
    · exact h₁
    · exact createLocks_reachable p k _ h₁

theorem tournamentCreate_reachable {P : Type} [DecidableEq P] (p : P) {n r : Int}
    {g₀ g : Globals} {t₀ t : PTable} (h : tournamentCreate n g₀ t₀ = (r, g, t))
    (h₀ : (⟨t₀, fun _ => none⟩ : Kernel P).Reachable) :
    (⟨t, fun _ => none⟩ : Kernel P).Reachable := by
  unfold tournamentCreate at h
  split at h
  · cases h
    exact h₀
  · dsimp only at h
    split_ifs at h <;> cases h <;> first | exact h₀ | exact createLocks_reachable p _ t₀ h₀

/-- Seen from the kernel, a tournament is a run of the kernel model from `peterson_init`: every
reachable state's lock table and pending waits are reached by `tournament_create`'s
`peterson_create` calls followed by the participants' own calls, each participant step being the
call `Phase.call` names or no call at all. -/
theorem tournament_refines_kernel {n : Int} {g₀ g : Globals} {t : PTable}
    (hc : tournamentCreate n g₀ petersonInit = (0, g, t)) {s : Tournament g.nProcesses}
    (hs : Tournament.Reachable g t s) :
    (s.kernel g).Reachable ∧ ∀ p s', s.step g (.run p) = some s' →
      s'.kernel g = ((s.phase p).call (g.child p)).elim (s.kernel g)
        fun c => ((s.kernel g).step p c).1 := by
  obtain ⟨c, rfl, -⟩ := tournamentCreate_config hc
  have h₀ := tournamentCreate_reachable (⟨0, Nat.two_pow_pos _⟩ : Fin (2 ^ c.levels)) hc
    Kernel.Reachable.init
  obtain ⟨hv, hk⟩ := hs.kernel h₀
  exact ⟨hk, fun _ _ => Tournament.kernel_step hv⟩

theorem duel_refines_kernel :
    (duelWaiting.kernel duelGlobals).Reachable ∧ ∀ p s',
      duelWaiting.step duelGlobals (.run p) = some s' →
      s'.kernel duelGlobals = ((duelWaiting.phase p).call (duelGlobals.child p)).elim
        (duelWaiting.kernel duelGlobals) fun c => ((duelWaiting.kernel duelGlobals).step p c).1 :=
  tournament_refines_kernel tournamentCreate_two duelWaiting_reachable

end PetersonTournament
