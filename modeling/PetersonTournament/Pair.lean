import PetersonTournament.Node

/-!
# Two processes on one lock

`user/ptest.c`: a process and its child share one slot `h`, the parent with role 0 and the
child with role 1, and each repeats `peterson_acquire`, its critical section and
`peterson_release`. A failed call sends a process back to the start. Any process may destroy a
lock at any time, and create one as long as that does not hand `h` out again.
-/

namespace PetersonTournament

/-- Where a process of `ptest` is. -/
inductive Pc
  /-- Outside `peterson_acquire` and `peterson_release`. -/
  | idle
  /-- Yielding in the wait loop of `peterson_acquire`. -/
  | spinning
  /-- Between a `peterson_acquire` that returned 0 and its `peterson_release`. -/
  | critical
  deriving DecidableEq, Repr

/-- Where a guarded section of `sys_peterson_acquire` leaves its caller. -/
def AcquireOutcome.pc : AcquireOutcome → Pc
  | .spin => .spinning
  | .acquired => .critical
  | _ => .idle

structure Pair where
  ptable : PTable
  pc : Fin 2 → Pc

/-- A step of the role-`r` process, or a call by any other process. -/
inductive PairMove
  | acquire (r : Fin 2)
  | recheck (r : Fin 2)
  | release (r : Fin 2)
  | destroy (lockId : Int)
  | create
  deriving DecidableEq

/-- A move that is a step of role `x`'s `acquire_lock`. -/
def PairMove.acquires (x : Fin 2) : PairMove → Bool
  | .acquire y | .recheck y => y == x
  | _ => false

namespace Pair
variable (h : Fin nPetersonLocks)

/-- One move, when it can be made, and the value the call returns, if it returns. -/
def step (s : Pair) : PairMove → Option (Pair × Option Int)
  | .acquire r =>
    if s.pc r = .idle then
      some (⟨(sysPetersonAcquire s.ptable (h : Nat) (r : Nat)).2,
          Function.update s.pc r (sysPetersonAcquire s.ptable (h : Nat) (r : Nat)).1.pc⟩,
        (sysPetersonAcquire s.ptable (h : Nat) (r : Nat)).1.ret)
    else none
  | .recheck r =>
    if s.pc r = .spinning then
      some (⟨s.ptable, Function.update s.pc r (petersonRecheck s.ptable h r).pc⟩,
        (petersonRecheck s.ptable h r).ret)
    else none
  | .release r =>
    if s.pc r = .critical then
      some (⟨(sysPetersonRelease s.ptable (h : Nat) (r : Nat)).2, Function.update s.pc r .idle⟩,
        some (sysPetersonRelease s.ptable (h : Nat) (r : Nat)).1)
    else none
  | .destroy lockId =>
    some (⟨(sysPetersonDestroy s.ptable lockId).2, s.pc⟩,
      some (sysPetersonDestroy s.ptable lockId).1)
  | .create =>
    if (sysPetersonCreate s.ptable).1 = (h : Nat) then none
    else some (⟨(sysPetersonCreate s.ptable).2, s.pc⟩, some (sysPetersonCreate s.ptable).1)

/-- From the `create_lock` that returned `h`, with both processes at the start. -/
inductive Reachable : Pair → Prop
  | init (t : PTable) : (sysPetersonCreate t).1 = (h : Nat) →
      Reachable ⟨(sysPetersonCreate t).2, fun _ => .idle⟩
  | step {s s' : Pair} {m : PairMove} {o : Option Int} :
      Reachable s → s.step h m = some (s', o) → Reachable s'

/-- Role `x` has set its flag: it waits or is in its critical section. -/
def reg (s : Pair) (x : Fin 2) : Prop := s.pc x ≠ .idle

/-- Role `x` is in its critical section. -/
def held (s : Pair) (x : Fin 2) : Prop := s.pc x = .critical

/-- While `h` is active it satisfies the Peterson invariant for the two processes; and the two
are never in their critical sections together, which outlives the slot's destruction. -/
structure Inv (s : Pair) : Prop where
  node : (s.ptable h).active = true → NodeInv (s.ptable h) s.reg s.held
  excl : ∀ r, s.held r → s.held (1 - r) → False

variable {h}

theorem inv_of_nodeInv {s : Pair} (hn : NodeInv (s.ptable h) s.reg s.held) : Inv h s :=
  ⟨fun _ => hn, fun _ h1 h2 => hn.not_held_both h1 h2⟩

/-- Once `h` is inactive only the exclusion is kept, and no process enters. -/
theorem Inv.of_inactive {s s' : Pair} (hi : Inv h s) (ha : (s'.ptable h).active = false)
    (hx : ∀ x, s'.held x → s.held x) : Inv h s' :=
  ⟨fun h' => by simp [ha] at h', fun r h1 h2 => hi.excl r (hx r h1) (hx _ h2)⟩

theorem Inv.acquire {t : PTable} {pc : Fin 2 → Pc} (hi : Inv h ⟨t, pc⟩) {r : Fin 2}
    (hr : pc r = .idle) :
    Inv h ⟨(sysPetersonAcquire t (h : Nat) (r : Nat)).2,
      Function.update pc r (sysPetersonAcquire t (h : Nat) (r : Nat)).1.pc⟩ := by
  rw [sysPetersonAcquire_coe]
  cases ha : (t h).active
  · simpa only [if_true, AcquireOutcome.pc, ← hr, Function.update_eq_self] using hi
  · have hw := waitTest_of_active (show (announce (t h) r).active = true by simpa using ha) r
    simp only [Bool.true_eq_false, ↓reduceIte, hw]
    refine inv_of_nodeInv ?_
    simp only [Function.update_same]
    cases hc : waitCondition (announce (t h) r) r <;>
      refine (hi.node ha).announce (show ¬ reg ⟨t, pc⟩ r by simp [reg, hr]) (fun x => ?_)
        (fun x => ?_) <;>
      rcases eq_or_ne x r with rfl | hx <;> simp_all [reg, held, AcquireOutcome.pc]

theorem Inv.recheck {t : PTable} {pc : Fin 2 → Pc} (hi : Inv h ⟨t, pc⟩) {r : Fin 2}
    (hr : pc r = .spinning) : Inv h ⟨t, Function.update pc r (petersonRecheck t h r).pc⟩ := by
  unfold petersonRecheck
  cases ha : (t h).active
  · refine hi.of_inactive ha fun x hx => ?_
    rw [waitTest_of_inactive ha] at hx
    rcases eq_or_ne x r with rfl | hx'
    · simp only [held, Function.update_same] at hx
      split at hx <;> cases hx
    · simpa [held, hx'] using hx
  · rw [waitTest_of_active ha]
    cases hc : waitCondition (t h) r
    · refine inv_of_nodeInv ((hi.node ha).pass hc (show reg ⟨t, pc⟩ r by simp [reg, hr])
        (fun x => ?_) (fun x => ?_)) <;>
        rcases eq_or_ne x r with rfl | hx <;> simp_all [reg, held, AcquireOutcome.pc]
    · simpa [AcquireOutcome.pc, ← hr] using hi

theorem Inv.release {t : PTable} {pc : Fin 2 → Pc} (hi : Inv h ⟨t, pc⟩) {r : Fin 2}
    (hr : pc r = .critical) :
    Inv h ⟨(sysPetersonRelease t (h : Nat) (r : Nat)).2, Function.update pc r .idle⟩ := by
  rw [sysPetersonRelease_coe]
  cases ha : (t h).active
  · refine hi.of_inactive ha fun x hx => ?_
    rcases eq_or_ne x r with rfl | hx' <;> simp_all [held]
  · simp only [Bool.true_eq_false, ↓reduceIte]
    refine inv_of_nodeInv ?_
    simp only [Function.update_same]
    exact (hi.node ha).withdraw (fun x => by rcases eq_or_ne x r with rfl | hx <;> simp_all [reg])
      (fun x => by rcases eq_or_ne x r with rfl | hx <;> simp_all [held])

theorem Inv.of_slot_eq {t t' : PTable} {pc : Fin 2 → Pc} (hi : Inv h ⟨t, pc⟩) (he : t' h = t h) :
    Inv h ⟨t', pc⟩ := by
  refine ⟨fun ha => ?_, hi.excl⟩
  change (t' h).active = true at ha
  change NodeInv (t' h) _ _
  rw [he] at ha ⊢
  exact hi.node ha

theorem Inv.destroy {t : PTable} {pc : Fin 2 → Pc} (hi : Inv h ⟨t, pc⟩) (lockId : Int) :
    Inv h ⟨(sysPetersonDestroy t lockId).2, pc⟩ :=
  (sysPetersonDestroy_frame t lockId h).elim hi.of_slot_eq fun ha => hi.of_inactive ha fun _ => id

theorem Inv.step {s s' : Pair} {m : PairMove} {o : Option Int} (hi : Inv h s)
    (hs : s.step h m = some (s', o)) : Inv h s' := by
  obtain ⟨t, pc⟩ := s
  cases m <;> simp only [Pair.step, Option.ite_none_right_eq_some, Option.ite_none_left_eq_some,
    Option.some.injEq, Prod.mk.injEq] at hs
  · obtain ⟨hr, rfl, -⟩ := hs; exact hi.acquire hr
  · obtain ⟨hr, rfl, -⟩ := hs; exact hi.recheck hr
  · obtain ⟨hr, rfl, -⟩ := hs; exact hi.release hr
  · obtain ⟨rfl, -⟩ := hs; exact hi.destroy _
  · obtain ⟨hc, rfl, -⟩ := hs; exact hi.of_slot_eq (sysPetersonCreate_frame hc)

theorem Reachable.inv {s : Pair} (hs : Reachable h s) : Inv h s := by
  induction hs with
  | init t hc =>
    refine inv_of_nodeInv (nodeInv_idle (fun x => ?_) (fun x => ?_) (fun x => ?_)) <;>
      simp [sysPetersonCreate_fresh hc, PetersonLock.fresh, reg, held]
  | step _ hs ih => exact ih.step hs

/-- Two-party mutual exclusion: whatever the interleaving and wherever slots are destroyed, the
two processes are never both between an `acquire_lock` that returned 0 and their
`release_lock`. -/
theorem two_party_mutual_exclusion {s : Pair} (hs : Reachable h s) :
    ¬ (s.pc 0 = .critical ∧ s.pc 1 = .critical) :=
  fun ⟨h0, h1⟩ => hs.inv.excl 0 h0 h1

/-- Slot 0 just created by `create_lock`, both processes at the start. -/
def pairStart : Pair := ⟨(sysPetersonCreate petersonInit).2, fun _ => .idle⟩

/-- The role-1 process has taken slot 0 and is in its critical section. -/
def heldByOne : Pair := ((pairStart.step 0 (.acquire 1)).getD (pairStart, none)).1

/-- The role-0 process has announced itself and waits. -/
def zeroWaits : Pair := ((heldByOne.step 0 (.acquire 0)).getD (heldByOne, none)).1

theorem heldByOne_reachable : Reachable 0 heldByOne :=
  .step (.init petersonInit (by decide))
    (show pairStart.step 0 (.acquire 1) = some (heldByOne, some 0) from rfl)

theorem zeroWaits_mutual_exclusion :
    zeroWaits.pc 1 = .critical ∧ zeroWaits.pc 0 = .spinning ∧
      ¬ (zeroWaits.pc 0 = .critical ∧ zeroWaits.pc 1 = .critical) :=
  ⟨rfl, rfl, two_party_mutual_exclusion (.step heldByOne_reachable
    (show heldByOne.step 0 (.acquire 0) = some (zeroWaits, none) from rfl))⟩

variable (h) in
/-- Role `1 - r`'s `acquire_lock` calls that return 0 in a schedule, counted until role `r`'s
pending `acquire_lock` returns. -/
def overtakes (r : Fin 2) : Pair → List PairMove → Nat
  | _, [] => 0
  | s, m :: ms =>
    match s.step h m with
    | none => overtakes r s ms
    | some (s', o) =>
      if m.acquires r = true ∧ o.isSome = true then 0
      else (if m.acquires (1 - r) = true ∧ o = some 0 then 1 else 0) + overtakes r s' ms

variable (h) in
/-- Role `r` waits on the active slot `h`, and role `1 - r` has overtaken it `c` times; it can
do so once more only while it waits itself and `turn` is not `r`. -/
structure Bypass (r : Fin 2) (c : Nat) (s : Pair) : Prop where
  inv : Inv h s
  active : (s.ptable h).active = true
  waiting : s.pc r = .spinning
  count : c ≤ 1
  turn : c = 1 → (s.ptable h).turn = r ∨ s.pc (1 - r) ≠ .spinning

theorem Bypass.of_slot_eq {r : Fin 2} {c : Nat} {t t' : PTable} {pc : Fin 2 → Pc}
    (hb : Bypass h r c ⟨t, pc⟩) (hi : Inv h ⟨t', pc⟩) (he : t' h = t h) :
    Bypass h r c ⟨t', pc⟩ := by
  obtain ⟨-, ha, hw, hc, ht⟩ := hb
  simp only at ha ht
  exact ⟨hi, by simpa only [he] using ha, hw, hc, by simpa only [he] using ht⟩

theorem Bypass.step {r : Fin 2} {c : Nat} {s s' : Pair} {m : PairMove} {o : Option Int}
    (hb : Bypass h r c s) (hs : s.step h m = some (s', o)) (hm : m ≠ .destroy (h : Nat)) :
    (m.acquires r = true ∧ o.isSome = true) ∨
      Bypass h r (c + if m.acquires (1 - r) = true ∧ o = some 0 then 1 else 0) s' := by
  have hi' := hb.inv.step hs
  obtain ⟨t, pc⟩ := s
  obtain ⟨hi, ha, hw, hc, ht⟩ := hb
  simp only at ha hw ht
  have hflag : (t h).flag r = true := ((hi.node ha).flag_iff r).2 (by simp [reg, hw])
  have hne : ∀ v : Pc, Function.update pc (1 - r) v r = pc r :=
    fun v => Function.update_noteq (ne_one_sub r) v pc
  cases m <;> simp only [Pair.step, Option.ite_none_right_eq_some, Option.ite_none_left_eq_some,
    Option.some.injEq, Prod.mk.injEq] at hs
  case acquire x =>
    obtain ⟨hx, rfl, rfl⟩ := hs
    rcases eq_or_eq_one_sub x r with rfl | rfl
    · simp [hw] at hx
    have hcond : waitCondition (announce (t h) (1 - r)) (1 - r) = true := by
      simp [waitCondition, Function.update_noteq (ne_one_sub r), hflag]
    rw [sysPetersonAcquire_coe] at hi' ⊢
    simp only [ha, Bool.true_eq_false, ↓reduceIte,
      waitTest_of_active (show (announce (t h) (1 - r)).active = true by simpa using ha), hcond]
      at hi' ⊢
    exact .inr ⟨hi', by simpa using ha, by simpa [hne] using hw,
      by simpa [AcquireOutcome.ret] using hc,
      fun _ => .inl (by simp)⟩
  case recheck x =>
    obtain ⟨hx, rfl, rfl⟩ := hs
    simp only [petersonRecheck, waitTest_of_active ha] at hi' ⊢
    rcases eq_or_eq_one_sub x r with rfl | rfl
    · cases hcw : waitCondition (t h) x <;> simp only [hcw, Bool.false_eq_true, ↓reduceIte] at hi' ⊢
      · exact .inl ⟨by simp [PairMove.acquires], rfl⟩
      · simp only [AcquireOutcome.pc, ← hw, Function.update_eq_self] at hi' ⊢
        exact .inr ⟨hi', ha, hw, by simpa [AcquireOutcome.ret] using hc,
          by simpa [AcquireOutcome.ret] using ht⟩
    · have hcond : waitCondition (t h) (1 - r) = ((t h).turn == r) := by
        simp [waitCondition, hflag]
      cases htr : (t h).turn == r <;>
        simp only [hcond, htr, Bool.false_eq_true, ↓reduceIte] at hi' ⊢
      · have hc0 : c = 0 := by
          by_contra h0
          rcases ht (by omega) with h1 | h1
          · simp [h1] at htr
          · exact h1 hx
        subst hc0
        exact .inr ⟨hi', ha, by simpa [hne] using hw,
          by simp [PairMove.acquires, AcquireOutcome.ret],
          fun _ => .inr (by simp [AcquireOutcome.pc])⟩
      · simp only [AcquireOutcome.pc, ← hx, Function.update_eq_self] at hi' ⊢
        exact .inr ⟨hi', ha, hw, by simpa [AcquireOutcome.ret] using hc,
          by simpa [AcquireOutcome.ret] using ht⟩
  case release x =>
    obtain ⟨hx, rfl, rfl⟩ := hs
    rcases eq_or_eq_one_sub x r with rfl | rfl
    · simp [hw] at hx
    rw [sysPetersonRelease_coe] at hi' ⊢
    simp only [ha, Bool.true_eq_false, ↓reduceIte] at hi' ⊢
    exact .inr ⟨hi', by simpa using ha, by simpa [hne] using hw,
      by simpa [PairMove.acquires] using hc,
      fun _ => .inr (by simp)⟩
  case destroy lockId =>
    obtain ⟨rfl, rfl⟩ := hs
    refine .inr ?_
    simpa [PairMove.acquires] using (Bypass.of_slot_eq ⟨hi, ha, hw, hc, ht⟩ hi'
      (sysPetersonDestroy_frame_ne (by rintro rfl; exact hm rfl)))
  case create =>
    obtain ⟨hne', rfl, rfl⟩ := hs
    exact .inr (by simpa [PairMove.acquires] using (Bypass.of_slot_eq ⟨hi, ha, hw, hc, ht⟩ hi'
      (sysPetersonCreate_frame hne')))

theorem Bypass.overtakes_le {r : Fin 2} :
    ∀ {c : Nat} {s : Pair} (ms : List PairMove), Bypass h r c s →
      (∀ m ∈ ms, m ≠ .destroy (h : Nat)) → c + overtakes h r s ms ≤ 1
  | _, _, [], hb, _ => hb.count
  | c, s, m :: ms, hb, hd => by
    simp only [List.mem_cons, forall_eq_or_imp] at hd
    cases hs : s.step h m with
    | none => simpa only [Pair.overtakes, hs] using Bypass.overtakes_le ms hb hd.2
    | some so =>
      obtain ⟨s', o⟩ := so
      simp only [Pair.overtakes, hs]
      split
      · exact hb.count
      · rcases hb.step hs hd.1 with hret | hb'
        · contradiction
        · have := Bypass.overtakes_le ms hb' hd.2
          omega

/-- Bounded bypass: from the step in which role `r`'s `acquire_lock` sets `turn` and finds its
wait condition true until that call returns, role `1 - r`'s `acquire_lock` returns 0 at most
once, whatever the interleaving, as long as nobody destroys `h`. -/
theorem bounded_bypass {s s₁ : Pair} {r : Fin 2} (hs : Reachable h s)
    (hw : s.step h (.acquire r) = some (s₁, none)) (ms : List PairMove)
    (hd : ∀ m ∈ ms, m ≠ .destroy (h : Nat)) : overtakes h r s₁ ms ≤ 1 := by
  have hi := hs.inv.step hw
  obtain ⟨t, pc⟩ := s
  simp only [Pair.step, Option.ite_none_right_eq_some, Option.some.injEq, Prod.mk.injEq,
    AcquireOutcome.ret_eq_none] at hw
  obtain ⟨-, rfl, hspin⟩ := hw
  rw [sysPetersonAcquire_coe] at hspin hi ⊢
  cases ha : (t h).active <;> simp only [ha, Bool.true_eq_false, ↓reduceIte] at hspin hi ⊢
  · cases hspin
  · have hb : Bypass h r 0 _ := ⟨hi, by simpa using ha, by simp [hspin, AcquireOutcome.pc],
      Nat.zero_le 1, fun h0 => absurd h0 (by decide)⟩
    simpa using Bypass.overtakes_le ms hb hd

theorem bounded_bypass_of_held :
    overtakes 0 0 zeroWaits [.release 1, .acquire 1, .recheck 1, .recheck 0] ≤ 1 :=
  bounded_bypass heldByOne_reachable
    (show heldByOne.step 0 (.acquire 0) = some (zeroWaits, none) from rfl) _ (by decide)

end Pair

end PetersonTournament
