import PetersonTournament.Pair

/-!
# The Peterson test program

`user/ptest.c`'s `main`, whole. The parent creates one lock and forks; the parent runs with role
0 and the child with role 1, and each makes `ptestIterations` passes of `peterson_acquire`, its
critical section and `peterson_release`. A call that returns a negative value sends a process
to the error branch, where the parent waits for its child and destroys the lock, and both
`exit(1)`. After the loop the child exits, and the parent waits for it, destroys the lock and
exits. The program runs alone on the lock table and its `fork` succeeds. Printing, `sleep` and
`getpid` touch nothing shared and are folded into the step before them.

Seen through `PtestPc.pc`, each step is a move of `Pair` or none. Along every run no call
fails: the lock stays active while a process uses it, and the parent frees it only after its
`wait(0)` has seen the child exit.
-/

namespace PetersonTournament

/-- The bound of the loop, `for (int i = 0; i < 100; i++)`. -/
def ptestIterations : Nat := 100

/-- Where a process of `main` is, after the `fork`. -/
inductive PtestPc
  /-- At the `peterson_acquire` of iteration `i`. -/
  | acquiring (i : Nat)
  /-- Yielding in the wait loop of that `peterson_acquire`. -/
  | spinning (i : Nat)
  /-- In the critical section of iteration `i`, before its `peterson_release`. -/
  | critical (i : Nat)
  /-- At the parent's `wait(0)`, after the loop or on the error branch (`failed`). -/
  | waiting (failed : Bool)
  /-- At the parent's `peterson_destroy(lock_id)`. -/
  | destroying (failed : Bool)
  /-- After `exit(status)`. -/
  | exited (status : Int)
  deriving DecidableEq, Repr

namespace PtestPc

/-- The error branch, `if(fork_ret > 0) wait(0); if(role == 0) peterson_destroy(lock_id);
exit(1);`: the parent goes to its `wait(0)`, the child exits. -/
def onFailure (role : Fin 2) : PtestPc := if role = 0 then .waiting true else .exited 1

/-- After the loop: the parent goes to its `wait(0)`, the child to its `exit(0)`. -/
def afterLoop (role : Fin 2) : PtestPc := if role = 0 then .waiting false else .exited 0

/-- Where iteration `i` goes on when its `peterson_acquire` returns `v`, or that it stays in the
wait loop when the call does not return. -/
def ofAcquire (role : Fin 2) (i : Nat) : Option Int → PtestPc
  | none => .spinning i
  | some v => if v < 0 then onFailure role else .critical i

/-- Where iteration `i` goes on when its `peterson_release` returns `v`: the error branch, the
next iteration after `sleep(1)` and `i++`, or the code after the loop. -/
def ofRelease (role : Fin 2) (i : Nat) (v : Int) : PtestPc :=
  if v < 0 then onFailure role
  else if i + 1 < ptestIterations then .acquiring (i + 1) else afterLoop role

/-- Where a process is as one of the two processes of `Pair`. -/
def pc : PtestPc → Pc
  | .spinning _ => .spinning
  | .critical _ => .critical
  | _ => .idle

/-- Where a process is when none of its calls has failed: in the loop, or past it on the way to
`exit(0)`; only the parent waits and destroys. -/
def Ok (role : Fin 2) : PtestPc → Prop
  | .acquiring i | .spinning i | .critical i => i < ptestIterations
  | .waiting failed | .destroying failed => role = 0 ∧ failed = false
  | .exited status => status = 0

@[simp] theorem acquiring_pc (i : Nat) : (acquiring i).pc = .idle := rfl
@[simp] theorem spinning_pc (i : Nat) : (spinning i).pc = .spinning := rfl
@[simp] theorem critical_pc (i : Nat) : (critical i).pc = .critical := rfl
@[simp] theorem waiting_pc (f : Bool) : (waiting f).pc = .idle := rfl
@[simp] theorem destroying_pc (f : Bool) : (destroying f).pc = .idle := rfl
@[simp] theorem exited_pc (st : Int) : (exited st).pc = .idle := rfl

@[simp] theorem onFailure_pc (role : Fin 2) : (onFailure role).pc = .idle := by
  unfold onFailure; split <;> rfl

@[simp] theorem ofAcquire_pc (role : Fin 2) (i : Nat) (o : AcquireOutcome) :
    (ofAcquire role i o.ret).pc = o.pc := by
  cases o <;> simp [ofAcquire, AcquireOutcome.ret, AcquireOutcome.pc]

@[simp] theorem ofRelease_pc (role : Fin 2) (i : Nat) (v : Int) : (ofRelease role i v).pc = .idle := by
  unfold ofRelease afterLoop; split_ifs <;> simp

theorem afterLoop_ok (role : Fin 2) : (afterLoop role).Ok role := by
  unfold afterLoop; split_ifs with h <;> simp [Ok, h]

end PtestPc

/-- The lock table, and where the parent (role 0) and the child (role 1) are. -/
structure Ptest where
  ptable : PTable
  pc : Fin 2 → PtestPc

namespace Ptest
variable (h : Fin nPetersonLocks)

/-- The next atomic step of the process with role `r` on the lock `h`: a system call or a
re-check of the wait loop, the parent's `wait(0)` once the child has exited, or none after
`exit`. -/
def step (s : Ptest) (r : Fin 2) : Option Ptest :=
  match s.pc r with
  | .acquiring i =>
    some ⟨(sysPetersonAcquire s.ptable (h : Nat) (r : Nat)).2, Function.update s.pc r
      (.ofAcquire r i (sysPetersonAcquire s.ptable (h : Nat) (r : Nat)).1.ret)⟩
  | .spinning i =>
    some ⟨s.ptable, Function.update s.pc r (.ofAcquire r i (petersonRecheck s.ptable h r).ret)⟩
  | .critical i =>
    some ⟨(sysPetersonRelease s.ptable (h : Nat) (r : Nat)).2, Function.update s.pc r
      (.ofRelease r i (sysPetersonRelease s.ptable (h : Nat) (r : Nat)).1)⟩
  | .waiting failed =>
    match s.pc 1 with
    | .exited _ => some ⟨s.ptable, Function.update s.pc r (.destroying failed)⟩
    | _ => none
  | .destroying failed =>
    some ⟨(sysPetersonDestroy s.ptable (h : Nat)).2, Function.update s.pc r
      (.exited (if failed then 1 else if (sysPetersonDestroy s.ptable (h : Nat)).1 < 0 then 1
        else 0))⟩
  | .exited _ => none

/-- Both processes at the first iteration, after `peterson_create` on the table `t₀` and the
`fork`. -/
def start (t₀ : PTable) : Ptest := ⟨(sysPetersonCreate t₀).2, fun _ => .acquiring 0⟩

/-- `main` up to its loop: `peterson_create` on `t₀`, then `fork`, whose outcome is `forkOk`.
Either the program ends, with the parent's exit status and the lock table, or both processes
start their loops. On a failed `fork` the parent destroys the lock and exits. -/
def prologue (t₀ : PTable) (forkOk : Bool) : Except (Int × PTable) Ptest :=
  if (sysPetersonCreate t₀).1 < 0 then .error (1, (sysPetersonCreate t₀).2)
  else if forkOk then .ok (start t₀)
  else .error (1, (sysPetersonDestroy (sysPetersonCreate t₀).2 (sysPetersonCreate t₀).1).2)

/-- The states of a run of `main` whose `peterson_create` on `t₀` returned `h`. -/
inductive Reachable (t₀ : PTable) : Ptest → Prop
  | start : (sysPetersonCreate t₀).1 = (h : Nat) → Reachable t₀ (start t₀)
  | step {s s' : Ptest} {r : Fin 2} : Reachable t₀ s → s.step h r = some s' → Reachable t₀ s'

/-- The two processes as seen by `Pair`. -/
def toPair (s : Ptest) : Pair := ⟨s.ptable, fun r => (s.pc r).pc⟩

@[simp] theorem toPair_ptable (s : Ptest) : s.toPair.ptable = s.ptable := rfl

@[simp] theorem toPair_pc (s : Ptest) (r : Fin 2) : s.toPair.pc r = (s.pc r).pc := rfl

variable {h}

theorem toPair_update (s : Ptest) (t : PTable) (r : Fin 2) (x : PtestPc) :
    (⟨t, Function.update s.pc r x⟩ : Ptest).toPair = ⟨t, Function.update s.toPair.pc r x.pc⟩ := by
  simp only [toPair, Pair.mk.injEq, true_and]
  funext q
  exact Function.apply_update (fun _ => PtestPc.pc) s.pc r x q

theorem step_update {s s' : Ptest} {r : Fin 2} (hs : s.step h r = some s') :
    ∃ x, s'.pc = Function.update s.pc r x := by
  unfold step at hs
  split at hs <;> (try split at hs) <;> cases hs <;> exact ⟨_, rfl⟩

theorem step_pc_of_ne {s s' : Ptest} {r q : Fin 2} (hs : s.step h r = some s') (hq : q ≠ r) :
    s'.pc q = s.pc q := by
  obtain ⟨x, hx⟩ := step_update hs
  rw [hx, Function.update_noteq hq]

/-- Seen through `toPair`, each step of `main` is a move of `Pair`, or changes nothing (the
parent's `wait(0)`). -/
theorem step_toPair {s s' : Ptest} {r : Fin 2} (hs : s.step h r = some s') :
    s'.toPair = s.toPair ∨ ∃ m o, s.toPair.step h m = some (s'.toPair, o) := by
  cases hp : s.pc r with
  | acquiring i =>
    simp only [step, hp, Option.some.injEq] at hs
    subst hs
    refine .inr ⟨.acquire r, (sysPetersonAcquire s.ptable (h : Nat) (r : Nat)).1.ret, ?_⟩
    simp [Pair.step, hp, toPair_update]
  | spinning i =>
    simp only [step, hp, Option.some.injEq] at hs
    subst hs
    refine .inr ⟨.recheck r, (petersonRecheck s.ptable h r).ret, ?_⟩
    simp [Pair.step, hp, toPair_update]
  | critical i =>
    simp only [step, hp, Option.some.injEq] at hs
    subst hs
    refine .inr ⟨.release r, some (sysPetersonRelease s.ptable (h : Nat) (r : Nat)).1, ?_⟩
    simp [Pair.step, hp, toPair_update]
  | waiting f =>
    simp only [step, hp] at hs
    split at hs <;> cases hs
    refine .inl ?_
    rw [toPair_update, Function.update_eq_self_iff.2 (by simp [hp])]
    rfl
  | destroying f =>
    simp only [step, hp, Option.some.injEq] at hs
    subst hs
    refine .inr ⟨.destroy (h : Nat), some (sysPetersonDestroy s.ptable (h : Nat)).1, ?_⟩
    rw [toPair_update, Function.update_eq_self_iff.2 (by simp [hp])]
    rfl
  | exited st => simp [step, hp] at hs

theorem Reachable.toPair {t₀ : PTable} {s : Ptest} (hs : Reachable h t₀ s) :
    Pair.Reachable h s.toPair := by
  induction hs with
  | start hc => exact Pair.Reachable.init t₀ hc
  | step _ hs ih =>
    rcases step_toPair hs with he | ⟨m, o, hm⟩
    · rwa [he]
    · exact ih.step hm

theorem role_cases (r : Fin 2) : r = 0 ∨ r = 1 := by
  revert r; decide

variable (h) in
/-- What holds along every run of `main`. -/
structure Inv (t₀ : PTable) (s : Ptest) : Prop where
  ok : ∀ r, (s.pc r).Ok r
  /-- The parent's `wait(0)` has returned only after the child's `exit(0)`. -/
  child : s.pc 0 = .destroying false ∨ s.pc 0 = .exited 0 → s.pc 1 = .exited 0
  active : s.pc 0 ≠ .exited 0 → (s.ptable h).active = true
  freed : s.pc 0 = .exited 0 → s.ptable h = PetersonLock.unused
  frame : ∀ k, k ≠ h → s.ptable k = t₀ k

section
variable {t₀ : PTable} {s : Ptest} {r : Fin 2}

theorem Inv.slot_active (hi : Inv h t₀ s) (hr : s.pc r ≠ .exited 0) :
    (s.ptable h).active = true := by
  rcases role_cases r with rfl | rfl
  · exact hi.active hr
  · exact hi.active fun h0 => hr (hi.child (.inr h0))

theorem Inv.step_acquiring (hi : Inv h t₀ s) {i : Nat} (hp : s.pc r = .acquiring i) :
    s.step h r = some ⟨Function.update s.ptable h (announce (s.ptable h) r), Function.update s.pc r
      (if waitCondition (announce (s.ptable h) r) r then .spinning i else .critical i)⟩ := by
  have ha := hi.slot_active (r := r) (by rw [hp]; nofun)
  simp only [step, hp, sysPetersonAcquire_coe, ha, Bool.true_eq_false, if_false,
    waitTest_of_active (show (announce (s.ptable h) r).active = true by simpa using ha)]
  cases waitCondition (announce (s.ptable h) r) r <;> simp [PtestPc.ofAcquire, AcquireOutcome.ret]

theorem Inv.step_spinning (hi : Inv h t₀ s) {i : Nat} (hp : s.pc r = .spinning i) :
    s.step h r = some ⟨s.ptable, Function.update s.pc r
      (if waitCondition (s.ptable h) r then .spinning i else .critical i)⟩ := by
  have ha := hi.slot_active (r := r) (by rw [hp]; nofun)
  simp only [step, hp, petersonRecheck, waitTest_of_active ha]
  cases waitCondition (s.ptable h) r <;> simp [PtestPc.ofAcquire, AcquireOutcome.ret]

theorem Inv.step_critical (hi : Inv h t₀ s) {i : Nat} (hp : s.pc r = .critical i) :
    s.step h r = some ⟨Function.update s.ptable h (withdraw (s.ptable h) r), Function.update s.pc r
      (if i + 1 < ptestIterations then .acquiring (i + 1) else .afterLoop r)⟩ := by
  have ha := hi.slot_active (r := r) (by rw [hp]; nofun)
  simp [step, hp, sysPetersonRelease_coe, ha, PtestPc.ofRelease]

theorem step_waiting {f : Bool} {st : Int} (hp : s.pc 0 = .waiting f) (hc : s.pc 1 = .exited st) :
    s.step h 0 = some ⟨s.ptable, Function.update s.pc 0 (.destroying f)⟩ := by
  simp [step, hp, hc]

theorem Inv.step_destroying (hi : Inv h t₀ s) (hp : s.pc 0 = .destroying false) :
    s.step h 0 = some ⟨Function.update s.ptable h PetersonLock.unused,
      Function.update s.pc 0 (.exited 0)⟩ := by
  have ha := hi.active (by rw [hp]; nofun)
  simp [step, hp, sysPetersonDestroy, validLockId_eq_some.2 rfl, ha, petersonFree]

theorem Inv.loop_move (hi : Inv h t₀ s) (hr : s.pc r ≠ .exited 0) {x : PtestPc} (hx : x.Ok r)
    (hx0 : r = 0 → x ≠ .destroying false ∧ x ≠ .exited 0) {pl : PetersonLock}
    (hpl : pl.active = (s.ptable h).active) :
    Inv h t₀ ⟨Function.update s.ptable h pl, Function.update s.pc r x⟩ where
  ok q := by
    by_cases hq : q = r
    · subst hq; simpa using hx
    · simpa [Function.update_noteq hq] using hi.ok q
  child hp := by
    rcases role_cases r with rfl | rfl
    · simp only [Function.update_same] at hp
      exact absurd hp (by simpa [not_or] using hx0 rfl)
    · exact absurd (hi.child (by simpa using hp)) hr
  active _ := by simp [hpl, hi.slot_active hr]
  freed hp := by
    rcases role_cases r with rfl | rfl
    · exact absurd (by simpa using hp) (hx0 rfl).2
    · exact absurd (hi.child (.inr (by simpa using hp))) hr
  frame k hk := by simp [Function.update_noteq hk, hi.frame k hk]

theorem Inv.wait (hi : Inv h t₀ s) (hp : s.pc 0 = .waiting false) (hc : s.pc 1 = .exited 0) :
    Inv h t₀ ⟨s.ptable, Function.update s.pc 0 (.destroying false)⟩ where
  ok q := by
    rcases role_cases q with rfl | rfl
    · simp [PtestPc.Ok]
    · simpa using hi.ok 1
  child _ := by simpa using hc
  active _ := hi.active (by rw [hp]; nofun)
  freed hp' := by simp at hp'
  frame := hi.frame

theorem Inv.destroy (hi : Inv h t₀ s) (hp : s.pc 0 = .destroying false) :
    Inv h t₀ ⟨Function.update s.ptable h PetersonLock.unused, Function.update s.pc 0 (.exited 0)⟩ where
  ok q := by
    rcases role_cases q with rfl | rfl
    · simp [PtestPc.Ok]
    · simpa using hi.ok 1
  child _ := by simpa using hi.child (.inl hp)
  active h' := by simp at h'
  freed _ := by simp
  frame k hk := by simp [Function.update_noteq hk, hi.frame k hk]

theorem Inv.step (hi : Inv h t₀ s) {s' : Ptest} (hs : s.step h r = some s') : Inv h t₀ s' := by
  cases hp : s.pc r with
  | acquiring i =>
    rw [hi.step_acquiring hp, Option.some.injEq] at hs
    subst hs
    have hok : i < ptestIterations := by simpa [hp, PtestPc.Ok] using hi.ok r
    exact hi.loop_move (by rw [hp]; nofun) (by split <;> exact hok) (fun _ => by split <;> simp)
      (by simp)
  | spinning i =>
    rw [hi.step_spinning hp, Option.some.injEq] at hs
    subst hs
    have hok : i < ptestIterations := by simpa [hp, PtestPc.Ok] using hi.ok r
    simpa using hi.loop_move (by rw [hp]; nofun) (x := if waitCondition (s.ptable h) r then
      .spinning i else .critical i) (by split <;> exact hok) (fun _ => by split <;> simp) rfl
  | critical i =>
    rw [hi.step_critical hp, Option.some.injEq] at hs
    subst hs
    refine hi.loop_move (by rw [hp]; nofun) ?_ (fun h0 => ?_) (by simp)
    · split
      · assumption
      · exact PtestPc.afterLoop_ok r
    · subst h0
      split <;> simp [PtestPc.afterLoop]
  | waiting f =>
    obtain ⟨rfl, rfl⟩ : r = 0 ∧ f = false := by simpa [hp, PtestPc.Ok] using hi.ok r
    simp only [Ptest.step, hp] at hs
    split at hs <;> cases hs
    next st hc =>
      obtain rfl : st = 0 := by simpa [hc, PtestPc.Ok] using hi.ok 1
      exact hi.wait hp hc
  | destroying f =>
    obtain ⟨rfl, rfl⟩ : r = 0 ∧ f = false := by simpa [hp, PtestPc.Ok] using hi.ok r
    rw [hi.step_destroying hp, Option.some.injEq] at hs
    subst hs
    exact hi.destroy hp
  | exited st => simp [Ptest.step, hp] at hs

theorem inv_start (hc : (sysPetersonCreate t₀).1 = (h : Nat)) : Inv h t₀ (start t₀) where
  ok _ := by simp [start, PtestPc.Ok, ptestIterations]
  child hp := by simp [start] at hp
  active _ := by simp [start, sysPetersonCreate_fresh hc, PetersonLock.fresh]
  freed hp := by simp [start] at hp
  frame k hk := sysPetersonCreate_frame (by rw [hc]; exact fun e => hk (Fin.ext (by exact_mod_cast e.symm)))

theorem Reachable.inv (hs : Reachable h t₀ s) : Inv h t₀ s := by
  induction hs with
  | start hc => exact inv_start hc
  | step _ hs ih => exact ih.step hs

end

end Ptest

/-- `main` implements the two processes of `Pair`: every state of a run is, seen through
`toPair`, a state of `Pair`, each step is a move of `Pair` or changes nothing, and the parent
and the child are never in their critical sections together. -/
theorem ptest_refines_pair {h : Fin nPetersonLocks} {t₀ : PTable} {s : Ptest}
    (hs : Ptest.Reachable h t₀ s) :
    Pair.Reachable h s.toPair ∧
      (∀ r s', s.step h r = some s' →
        s'.toPair = s.toPair ∨ ∃ m o, s.toPair.step h m = some (s'.toPair, o)) ∧
      ∀ i j, ¬ (s.pc 0 = .critical i ∧ s.pc 1 = .critical j) :=
  ⟨hs.toPair, fun _ _ => Ptest.step_toPair, fun _ _ ⟨h0, h1⟩ =>
    hs.toPair.inv.excl 0 (by simp [Pair.held, h0]) (by simp [Pair.held, h1])⟩

/-- The parent in the critical section of its first iteration. -/
def ptestParentIn : Ptest := ((Ptest.start petersonInit).step 0 0).getD (Ptest.start petersonInit)

/-- The parent in its critical section, and the child waiting for the lock. -/
def ptestContended : Ptest := (ptestParentIn.step 0 1).getD ptestParentIn

theorem ptestContended_reachable : Ptest.Reachable 0 petersonInit ptestContended :=
  .step (.step (.start (by decide))
      (show (Ptest.start petersonInit).step 0 0 = some ptestParentIn from rfl))
    (show ptestParentIn.step 0 1 = some ptestContended from rfl)

theorem ptest_contended_refines_pair :
    ptestContended.pc 0 = .critical 0 ∧ ptestContended.pc 1 = .spinning 0 ∧
      Pair.Reachable 0 ptestContended.toPair ∧
      (∀ r s', ptestContended.step 0 r = some s' →
        s'.toPair = ptestContended.toPair ∨
          ∃ m o, ptestContended.toPair.step 0 m = some (s'.toPair, o)) ∧
      ∀ i j, ¬ (ptestContended.pc 0 = .critical i ∧ ptestContended.pc 1 = .critical j) :=
  ⟨rfl, rfl, ptest_refines_pair ptestContended_reachable⟩

/-- No call of `main` fails, whatever the interleaving: each process is in its loop with its
counter below `ptestIterations`, or past it on the way to `exit(0)`; the parent passes its
`wait(0)` only after the child's `exit(0)`; the lock is active until the parent exits, and then
reset; and no other slot of the table is touched. -/
theorem ptest_calls_succeed {h : Fin nPetersonLocks} {t₀ : PTable} {s : Ptest}
    (hs : Ptest.Reachable h t₀ s) :
    (∀ r, (s.pc r).Ok r) ∧
      (s.pc 0 = .destroying false ∨ s.pc 0 = .exited 0 → s.pc 1 = .exited 0) ∧
      (s.pc 0 ≠ .exited 0 → (s.ptable h).active = true) ∧
      (s.pc 0 = .exited 0 → s.ptable h = PetersonLock.unused) ∧
      ∀ k, k ≠ h → s.ptable k = t₀ k :=
  let hi := hs.inv
  ⟨hi.ok, hi.child, hi.active, hi.freed, hi.frame⟩

theorem ptest_contended_calls_succeed :
    ptestContended.pc 0 = .critical 0 ∧ ptestContended.pc 1 = .spinning 0 ∧
      (∀ r, (ptestContended.pc r).Ok r) ∧
      (ptestContended.pc 0 = .destroying false ∨ ptestContended.pc 0 = .exited 0 →
        ptestContended.pc 1 = .exited 0) ∧
      (ptestContended.pc 0 ≠ .exited 0 → (ptestContended.ptable 0).active = true) ∧
      (ptestContended.pc 0 = .exited 0 → ptestContended.ptable 0 = PetersonLock.unused) ∧
      ∀ k, k ≠ 0 → ptestContended.ptable k = petersonInit k :=
  ⟨rfl, rfl, ptest_calls_succeed ptestContended_reachable⟩

/-- Before its loop, `main` ends only on an error branch: a failed `peterson_create` leaves the
table as it was, and a failed `fork` frees the lock the parent created before its `exit(1)`; when
the `fork` succeeds, both processes start their loops. -/
theorem ptest_prologue_frees_lock (t₀ : PTable) (forkOk : Bool) :
    ((sysPetersonCreate t₀).1 < 0 → Ptest.prologue t₀ forkOk = .error (1, t₀)) ∧
      ∀ h : Fin nPetersonLocks, (sysPetersonCreate t₀).1 = (h : Nat) →
        (forkOk = false →
          Ptest.prologue t₀ forkOk = .error (1, Function.update t₀ h PetersonLock.unused)) ∧
        (forkOk = true →
          Ptest.prologue t₀ forkOk = .ok (Ptest.start t₀) ∧ Ptest.Reachable h t₀ (Ptest.start t₀)) := by
  refine ⟨fun hneg => ?_, fun h hc => ⟨fun hf => ?_, fun hf => ⟨?_, .start hc⟩⟩⟩
  · rcases petersonAlloc_spec t₀ with ⟨i, -, -, he⟩ | ⟨-, he⟩ <;>
      simp only [sysPetersonCreate, he] at hneg
    · omega
    · simp [Ptest.prologue, sysPetersonCreate, he]
  all_goals have h0 : ¬ ((h : Nat) : Int) < 0 := by omega
  · obtain ⟨i, hi, -, ht⟩ := sysPetersonCreate_ok (by rwa [hc])
    obtain rfl : i = h := Fin.ext (by omega)
    simp [Ptest.prologue, hc, hf, ht, h0, sysPetersonDestroy, validLockId_eq_some.2 rfl,
      petersonFree, PetersonLock.fresh]
  · simp [Ptest.prologue, hc, hf, h0]

theorem ptest_prologue_fork_fails :
    (sysPetersonCreate petersonInit).1 = ((0 : Fin nPetersonLocks) : Nat) ∧
      Ptest.prologue petersonInit false =
        .error (1, Function.update petersonInit 0 PetersonLock.unused) :=
  ⟨rfl, ((ptest_prologue_frees_lock petersonInit false).2 0 rfl).1 rfl⟩

end PetersonTournament
