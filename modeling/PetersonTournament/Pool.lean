import PetersonTournament.Lock

/-!
# Processes calling into the lock table

Any number of processes make the four system calls in any order. A process inside the wait
loop of `sys_peterson_acquire` can only re-check; any other process can make a new call. A
schedule is the list of (process, call) pairs in the order the kernel runs them; a call its
process cannot make at that point changes nothing and returns nothing.
-/

namespace PetersonTournament

/-- A system call, or the next re-check of a pending `sys_peterson_acquire`. -/
inductive Call
  | create
  | acquire (lockId role : Int)
  | recheck
  | release (lockId role : Int)
  | destroy (lockId : Int)
  deriving DecidableEq, Repr

/-- The lock table and, for each process, the slot and role it waits on, if any. -/
structure Kernel (P : Type) where
  ptable : PTable
  waiting : P → Option (Fin nPetersonLocks × Fin 2)

namespace Kernel
variable {P : Type} [DecidableEq P]

/-- After `peterson_init`, with no process in a call. -/
def init : Kernel P := ⟨petersonInit, fun _ => none⟩

/-- A new call by a process outside the wait loop. -/
def issue (k : Kernel P) (p : P) : Call → Kernel P × Option Int
  | .create => (⟨(sysPetersonCreate k.ptable).2, k.waiting⟩, some (sysPetersonCreate k.ptable).1)
  | .acquire lockId role =>
    (⟨(sysPetersonAcquire k.ptable lockId role).2, Function.update k.waiting p
        (if (sysPetersonAcquire k.ptable lockId role).1 = .spin then validLockArgs lockId role
          else none)⟩,
      (sysPetersonAcquire k.ptable lockId role).1.ret)
  | .recheck => (k, none)
  | .release lockId role =>
    (⟨(sysPetersonRelease k.ptable lockId role).2, k.waiting⟩,
      some (sysPetersonRelease k.ptable lockId role).1)
  | .destroy lockId =>
    (⟨(sysPetersonDestroy k.ptable lockId).2, k.waiting⟩,
      some (sysPetersonDestroy k.ptable lockId).1)

/-- One step of process `p`, and the value its call returns, if it returns. -/
def step (k : Kernel P) (p : P) (c : Call) : Kernel P × Option Int :=
  match k.waiting p, c with
  | none, c => k.issue p c
  | some (i, r), .recheck =>
    (⟨k.ptable, Function.update k.waiting p
        (if petersonRecheck k.ptable i r = .spin then some (i, r) else none)⟩,
      (petersonRecheck k.ptable i r).ret)
  | some _, _ => (k, none)

/-- The state after a schedule. -/
def run (k : Kernel P) : List (P × Call) → Kernel P
  | [] => k
  | (p, c) :: cs => (k.step p c).1.run cs

/-- Each step of a schedule with the value it returned. -/
def trace (k : Kernel P) : List (P × Call) → List (P × Call × Option Int)
  | [] => []
  | (p, c) :: cs => (p, c, (k.step p c).2) :: (k.step p c).1.trace cs

inductive Reachable : Kernel P → Prop
  | init : Reachable init
  | step {k : Kernel P} (p : P) (c : Call) : Reachable k → Reachable (k.step p c).1

theorem step_of_none {k : Kernel P} {p : P} (h : k.waiting p = none) (c : Call) :
    k.step p c = k.issue p c := by
  simp [step, h]

theorem step_ptable_of_some {k : Kernel P} {p : P} {ir : Fin nPetersonLocks × Fin 2}
    (h : k.waiting p = some ir) (c : Call) : (k.step p c).1.ptable = k.ptable := by
  cases c <;> simp [step, h]

theorem Reachable.run {k : Kernel P} (h : k.Reachable) :
    ∀ cs : List (P × Call), (k.run cs).Reachable
  | [] => h
  | (p, c) :: cs => (Reachable.step p c h).run cs

theorem step_cases (k : Kernel P) (p : P) (c : Call) :
    (k.step p c).1.ptable = k.ptable ∨
    (c = .create ∧ (k.step p c).1.ptable = (sysPetersonCreate k.ptable).2 ∧
      (k.step p c).2 = some (sysPetersonCreate k.ptable).1) ∨
    (∃ lockId role, c = .acquire lockId role ∧
      (k.step p c).1.ptable = (sysPetersonAcquire k.ptable lockId role).2 ∧
      (k.step p c).2 = (sysPetersonAcquire k.ptable lockId role).1.ret) ∨
    (∃ lockId role, c = .release lockId role ∧
      (k.step p c).1.ptable = (sysPetersonRelease k.ptable lockId role).2 ∧
      (k.step p c).2 = some (sysPetersonRelease k.ptable lockId role).1) ∨
    (∃ lockId, c = .destroy lockId ∧
      (k.step p c).1.ptable = (sysPetersonDestroy k.ptable lockId).2 ∧
      (k.step p c).2 = some (sysPetersonDestroy k.ptable lockId).1) := by
  cases hw : k.waiting p with
  | some ir => exact .inl (step_ptable_of_some hw c)
  | none =>
    rw [step_of_none hw]
    cases c with
    | create => exact .inr (.inl ⟨rfl, rfl, rfl⟩)
    | acquire lockId role => exact .inr (.inr (.inl ⟨lockId, role, rfl, rfl, rfl⟩))
    | recheck => exact .inl rfl
    | release lockId role => exact .inr (.inr (.inr (.inl ⟨lockId, role, rfl, rfl, rfl⟩)))
    | destroy lockId => exact .inr (.inr (.inr (.inr ⟨lockId, rfl, rfl, rfl⟩)))

theorem step_create_ret {k : Kernel P} {p : P} {v : Int} (h : (k.step p .create).2 = some v) :
    (sysPetersonCreate k.ptable).1 = v ∧
      (k.step p .create).1.ptable = (sysPetersonCreate k.ptable).2 := by
  cases hw : k.waiting p <;> simp_all [step, issue]

theorem step_fail {k : Kernel P} {p : P} {c : Call} (h : (k.step p c).2 = some (-1)) :
    (k.step p c).1.ptable = k.ptable := by
  rcases k.step_cases p c with he | ⟨-, he, hr⟩ | ⟨l, r, -, he, hr⟩ | ⟨l, r, -, he, hr⟩ |
    ⟨l, -, he, hr⟩ <;> rw [he]
  · exact sysPetersonCreate_fail (Option.some.inj (hr.symm.trans h))
  · exact sysPetersonAcquire_fail (hr.symm.trans h)
  · exact sysPetersonRelease_fail (Option.some.inj (hr.symm.trans h))
  · exact sysPetersonDestroy_fail (Option.some.inj (hr.symm.trans h))

theorem step_active {k : Kernel P} {j : Fin nPetersonLocks} (h : (k.ptable j).active = true)
    (p : P) (c : Call) :
    ((k.step p c).1.ptable j).active = true ∨ (c = .destroy j ∧ (k.step p c).2 = some 0) := by
  rcases k.step_cases p c with he | ⟨-, he, -⟩ | ⟨l, r, -, he, -⟩ | ⟨l, r, -, he, -⟩ |
    ⟨l, rfl, he, hr⟩ <;> rw [he]
  · exact .inl h
  · exact .inl (sysPetersonCreate_active h)
  · exact .inl (by simpa using h)
  · exact .inl (by simpa using h)
  · cases ha : ((sysPetersonDestroy k.ptable l).2 j).active
    · obtain ⟨h0, rfl⟩ := sysPetersonDestroy_active h ha
      exact .inr ⟨rfl, hr.trans (congrArg some h0)⟩
    · exact .inl rfl

theorem run_active {j : Fin nPetersonLocks} :
    ∀ {k : Kernel P} (cs : List (P × Call)), (k.ptable j).active = true →
      (∀ p, (p, Call.destroy j, some 0) ∉ k.trace cs) → ((k.run cs).ptable j).active = true
  | _, [], h, _ => h
  | k, (p, c) :: cs, h, hd => by
    simp only [trace, List.mem_cons, Prod.mk.injEq, not_or] at hd
    refine run_active cs ((step_active h p c).resolve_right ?_) fun q => (hd q).2
    rintro ⟨rfl, hr⟩
    exact (hd p).1 ⟨rfl, rfl, hr.symm⟩

theorem create_twice_destroyed {k : Kernel P} {p q : P} {cs : List (P × Call)}
    {i : Fin nPetersonLocks} (h1 : (k.step p .create).2 = some ((i : Nat) : Int))
    (h2 : (((k.step p .create).1.run cs).step q .create).2 = some ((i : Nat) : Int)) :
    ∃ p', (p', Call.destroy i, some 0) ∈ (k.step p .create).1.trace cs := by
  obtain ⟨hr1, ht1⟩ := step_create_ret h1
  have hfresh : ((k.step p .create).1.ptable i).active = true := by
    rw [ht1, sysPetersonCreate_fresh hr1]; rfl
  by_contra hd
  push_neg at hd
  have hfree := sysPetersonCreate_inactive (step_create_ret h2).1
  rw [run_active cs hfresh hd] at hfree
  exact Bool.noConfusion hfree

theorem pool_allocation_invariant :
    (∀ t : PTable,
      (∃ i, (t i).active = false ∧ (∀ j < i, (t j).active = true) ∧
        sysPetersonCreate t = (((i : Nat) : Int), Function.update t i PetersonLock.fresh)) ∨
      ((∀ i, (t i).active = true) ∧ sysPetersonCreate t = (-1, t))) ∧
    (∀ (k : Kernel P) (p q : P) (cs : List (P × Call)) (i : Fin nPetersonLocks),
      (k.step p .create).2 = some ((i : Nat) : Int) →
      (((k.step p .create).1.run cs).step q .create).2 = some ((i : Nat) : Int) →
      ∃ p', (p', Call.destroy i, some 0) ∈ (k.step p .create).1.trace cs) ∧
    (∀ (k : Kernel P) (p : P) (c : Call),
      (k.step p c).2 = some (-1) → (k.step p c).1.ptable = k.ptable) :=
  ⟨petersonAlloc_spec, fun _ _ _ _ _ => create_twice_destroyed, fun _ _ _ => step_fail⟩

/-- What the first call of `p` to return in a schedule returns; while `p` waits, that is its
pending `acquire_lock`. -/
def pendingRet (p : P) : Kernel P → List (P × Call) → Option Int
  | _, [] => none
  | k, (q, c) :: cs =>
    if q = p ∧ (k.step q c).2.isSome then (k.step q c).2 else pendingRet p (k.step q c).1 cs

theorem step_waiting_of_ne {k : Kernel P} {p q : P} (h : q ≠ p) (c : Call) :
    (k.step q c).1.waiting p = k.waiting p := by
  cases hw : k.waiting q with
  | none => cases c <;> simp [step, hw, issue, Function.update_noteq h.symm]
  | some ir => cases c <;> simp [step, hw, Function.update_noteq h.symm]

theorem step_waiting_self {k : Kernel P} {p : P} {ir : Fin nPetersonLocks × Fin 2}
    (hw : k.waiting p = some ir) {c : Call} (hr : (k.step p c).2 = none) :
    (k.step p c).1.waiting p = some ir := by
  cases c <;> simp_all [step]

theorem step_inactive {k : Kernel P} {j : Fin nPetersonLocks} (h : (k.ptable j).active = false)
    (p : P) (c : Call) :
    ((k.step p c).1.ptable j).active = false ∨
      (c = .create ∧ (k.step p c).2 = some ((j : Nat) : Int)) := by
  rcases k.step_cases p c with he | ⟨rfl, he, hr⟩ | ⟨l, r, -, he, -⟩ | ⟨l, r, -, he, -⟩ |
    ⟨l, -, he, -⟩ <;> rw [he]
  · exact .inl h
  · cases ha : ((sysPetersonCreate k.ptable).2 j).active
    · exact .inl rfl
    · exact .inr ⟨rfl, hr.trans (congrArg some (sysPetersonCreate_activates h ha))⟩
  · exact .inl (by simpa using h)
  · exact .inl (by simpa using h)
  · exact .inl (sysPetersonDestroy_inactive h)

/-- A process waiting on an inactive slot that no `create_lock` hands out again returns nothing
until its first re-check, which returns -1. -/
theorem pendingRet_eq_of_inactive {p : P} {i : Fin nPetersonLocks} {r : Fin 2} :
    ∀ {k : Kernel P} (cs : List (P × Call)), k.waiting p = some (i, r) →
      (k.ptable i).active = false → (∀ q, (q, Call.create, some ((i : Nat) : Int)) ∉ k.trace cs) →
      pendingRet p k cs = if (p, Call.recheck) ∈ cs then some (-1) else none
  | _, [], _, _, _ => rfl
  | k, (q, c) :: cs, hw, ha, hc => by
    simp only [trace, List.mem_cons, Prod.mk.injEq, not_or] at hc
    by_cases hq : q = p
    · subst hq
      by_cases hc' : c = .recheck
      · subst hc'
        simp only [pendingRet, step, hw, petersonRecheck, waitTest_of_inactive ha,
          List.mem_cons_self, if_true]
        split <;> rfl
      · have hr : (k.step q c).2 = none := by cases c <;> simp_all [step]
        simp only [pendingRet, hr, Option.isSome_none, and_false, if_false]
        rw [pendingRet_eq_of_inactive cs (step_waiting_self hw hr)
          (by rw [step_ptable_of_some hw]; exact ha) fun q' => (hc q').2]
        simp [Ne.symm hc']
    · simp only [pendingRet, hq, false_and, if_false]
      rw [pendingRet_eq_of_inactive cs ((step_waiting_of_ne hq c).trans hw)
        ((step_inactive ha q c).resolve_right ?_) fun q' => (hc q').2]
      · simp [Ne.symm hq]
      rintro ⟨rfl, hr⟩
      exact (hc q).1 ⟨rfl, rfl, hr.symm⟩

theorem pendingRet_append {p : P} :
    ∀ {k : Kernel P} (cs₁ cs₂ : List (P × Call)), pendingRet p k cs₁ = none →
      pendingRet p k (cs₁ ++ cs₂) = pendingRet p (k.run cs₁) cs₂
  | _, [], _, _ => rfl
  | k, (q, c) :: cs₁, cs₂, hn => by
    simp only [pendingRet] at hn
    split at hn
    · rename_i h; exact absurd hn (Option.ne_none_iff_isSome.2 h.2)
    · simp only [List.cons_append, pendingRet, if_neg ‹_›, run]
      exact pendingRet_append cs₁ cs₂ hn

theorem waiting_of_pendingRet {p : P} {ir : Fin nPetersonLocks × Fin 2} :
    ∀ {k : Kernel P} (cs : List (P × Call)), k.waiting p = some ir → pendingRet p k cs = none →
      (k.run cs).waiting p = some ir
  | _, [], hw, _ => hw
  | k, (q, c) :: cs, hw, hn => by
    by_cases hq : q = p
    · subst hq
      have hr : (k.step q c).2 = none := by
        by_contra h
        simp [pendingRet, Option.ne_none_iff_isSome.1 h] at hn
        exact h hn
      simp only [pendingRet, hr, Option.isSome_none, and_false, if_false] at hn
      exact waiting_of_pendingRet cs (step_waiting_self hw hr) hn
    · simp only [pendingRet, hq, false_and, if_false] at hn
      exact waiting_of_pendingRet cs ((step_waiting_of_ne hq c).trans hw) hn

theorem destroy_leaves_waiter {k : Kernel P} {p q : P} {i : Fin nPetersonLocks} {r : Fin 2}
    {cs₁ : List (P × Call)} (hw : k.waiting p = some (i, r)) (h₁ : pendingRet p k cs₁ = none)
    (hd : ((k.run cs₁).step q (.destroy i)).2 = some 0) (cs₂ : List (P × Call)) :
    ((k.run cs₁).step q (.destroy i)).1.waiting p = some (i, r) ∧
      (((k.run cs₁).step q (.destroy i)).1.ptable i).active = false ∧
      pendingRet p k (cs₁ ++ (q, .destroy i) :: cs₂) =
        pendingRet p ((k.run cs₁).step q (.destroy i)).1 cs₂ := by
  have hw₁ := waiting_of_pendingRet cs₁ hw h₁
  have hq : q ≠ p := by
    rintro rfl
    simp [step, hw₁] at hd
  refine ⟨(step_waiting_of_ne hq (.destroy i)).trans hw₁, ?_, ?_⟩
  · cases hwq : (k.run cs₁).waiting q
    · simpa [step_of_none hwq, issue] using sysPetersonDestroy_self (k.run cs₁).ptable i
    · simp [step, hwq] at hd
  · rw [pendingRet_append _ _ h₁]
    simp only [pendingRet, hq, false_and, if_false]

/-- A `destroy_lock` that succeeds while `acquire_lock` waits on the slot makes that call return
nothing until the waiter's next re-check, which returns -1, unless a `create_lock` hands the slot
out again in between. -/
theorem destroy_observed_unless_reused {k : Kernel P} {p q : P} {i : Fin nPetersonLocks}
    {r : Fin 2} {cs₁ cs₂ : List (P × Call)} (hw : k.waiting p = some (i, r))
    (h₁ : pendingRet p k cs₁ = none) (hd : ((k.run cs₁).step q (.destroy i)).2 = some 0)
    (h₂ : ∀ q', (q', Call.create, some ((i : Nat) : Int)) ∉
      ((k.run cs₁).step q (.destroy i)).1.trace cs₂) :
    pendingRet p k (cs₁ ++ (q, .destroy i) :: cs₂) =
      if (p, Call.recheck) ∈ cs₂ then some (-1) else none := by
  obtain ⟨hw₂, hfree, he⟩ := destroy_leaves_waiter hw h₁ hd cs₂
  rw [he, pendingRet_eq_of_inactive cs₂ hw₂ hfree h₂]

/-- Slot 0 created, held by process 0 with role 1, and waited on by process 1 with role 0. -/
def contended : Kernel (Fin 3) :=
  init.run [(0, .create), (0, .acquire 0 1), (1, .acquire 0 0)]

theorem destroy_observed_at_recheck :
    pendingRet 1 contended ([] ++ (2, .destroy ((0 : Fin nPetersonLocks) : Nat)) ::
        [(0, .release 0 1), (1, .recheck)]) =
      if ((1 : Fin 3), Call.recheck) ∈ [((0 : Fin 3), Call.release 0 1), (1, .recheck)] then
        some (-1) else none :=
  destroy_observed_unless_reused (r := 0) (by decide) rfl (by decide) (by decide)

/-- The waiter's `acquire_lock` returns 0 although a `destroy_lock` of its slot succeeded while it
waited: a `create_lock` between the destroy and the re-check handed slot 0 out again. -/
theorem destroyed_waiter_acquires :
    contended.trace [(2, .destroy 0), (2, .create), (1, .recheck)] =
      [(2, .destroy 0, some 0), (2, .create, some 0), (1, .recheck, some 0)] ∧
    contended.waiting 1 = some (0, 0) := by
  decide

theorem destroyed_waiter_returns {k : Kernel P} {p q : P} {i : Fin nPetersonLocks}
    {r : Fin 2} {cs₁ cs₂ : List (P × Call)} (hw : k.waiting p = some (i, r))
    (h₁ : pendingRet p k cs₁ = none) (hd : ((k.run cs₁).step q (.destroy i)).2 = some 0)
    (h₂ : ∀ q', (q', Call.create, some ((i : Nat) : Int)) ∉
      ((k.run cs₁).step q (.destroy i)).1.trace cs₂) (hr : (p, Call.recheck) ∈ cs₂) :
    pendingRet p k (cs₁ ++ (q, .destroy i) :: cs₂) = some (-1) := by
  obtain ⟨hw₂, hfree, he⟩ := destroy_leaves_waiter hw h₁ hd cs₂
  rw [he, pendingRet_eq_of_inactive cs₂ hw₂ hfree h₂, if_pos hr]

theorem destroyed_waiter_returns_at_recheck :
    pendingRet 1 contended ([] ++ (2, .destroy ((0 : Fin nPetersonLocks) : Nat)) :: [(1, .recheck)]) =
      some (-1) :=
  destroyed_waiter_returns (r := 0) (by decide) rfl (by decide) (by decide) (by decide)

end Kernel

end PetersonTournament
