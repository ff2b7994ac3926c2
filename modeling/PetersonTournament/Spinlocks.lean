import Mathlib.Data.Finset.Max
import PetersonTournament.Pool

/-!
# The kernel's spinlocks

What lets each guarded section of `kernel/peterson.c` be one atomic step of `Kernel`: the
spinlocks `ptable_lock` and each slot's `lk`. Each section is written out, in the code's order,
as what it does to the spinlocks and where it reads or writes a slot's fields, as a function of
what it reads. Every section keeps one discipline (`discipline`): it takes a spinlock only above
every one it holds, `ptable_lock` first, so never one it already holds; it releases only what it
holds, and everything before it returns; it touches a slot's fields only under that slot's `lk`;
and it yields only with no spinlock held.

Any number of CPUs running such sections, with their spinlock operations interleaved in any
order, then never hold one spinlock together, touch a slot's fields one at a time, and never
deadlock: while one has work left, one can make its next move.
-/

namespace PetersonTournament

/-- The spinlocks `peterson.c` takes: `ptable_lock` and each slot's `lk`. -/
inductive SpinLock
  | ptableLock
  | slot (i : Fin nPetersonLocks)
  deriving DecidableEq

/-- `ptable_lock` is taken before any slot's `lk`. -/
def SpinLock.rank : SpinLock → Nat
  | .ptableLock => 0
  | .slot i => i + 1

/-- What a guarded section does that concerns the spinlocks. -/
inductive LockEvent
  | acquire (l : SpinLock)
  | release (l : SpinLock)
  /-- A read or write of a field of slot `i`. -/
  | touch (i : Fin nPetersonLocks)
  /-- `yield()` in the wait loop. -/
  | yield
  deriving DecidableEq

/-- Runs one CPU's events from the spinlocks it holds, `held`; `none` at the first event that
breaks the discipline. -/
def discipline : List SpinLock → List LockEvent → Option (List SpinLock)
  | held, [] => some held
  | held, .acquire l :: es =>
    if held.all (fun h => h.rank < l.rank) then discipline (l :: held) es else none
  | held, .release l :: es => if l ∈ held then discipline (held.erase l) es else none
  | held, .touch i :: es => if .slot i ∈ held then discipline held es else none
  | held, .yield :: es => if held = [] then discipline held es else none

section
variable {held r : List SpinLock} {es : List LockEvent}

theorem discipline_acquire {l : SpinLock} (h : discipline held (.acquire l :: es) = some r) :
    (∀ x ∈ held, x.rank < l.rank) ∧ discipline (l :: held) es = some r := by
  simp only [discipline] at h
  split at h
  · next hl => exact ⟨by simpa using hl, h⟩
  · cases h

theorem discipline_release {l : SpinLock} (h : discipline held (.release l :: es) = some r) :
    l ∈ held ∧ discipline (held.erase l) es = some r := by
  simp only [discipline] at h
  split at h
  · next hl => exact ⟨hl, h⟩
  · cases h

theorem discipline_touch {i : Fin nPetersonLocks} (h : discipline held (.touch i :: es) = some r) :
    .slot i ∈ held ∧ discipline held es = some r := by
  simp only [discipline] at h
  split at h
  · next hl => exact ⟨hl, h⟩
  · cases h

theorem discipline_yield (h : discipline held (.yield :: es) = some r) :
    held = [] ∧ discipline held es = some r := by
  simp only [discipline] at h
  split at h
  · next hl => exact ⟨hl, h⟩
  · cases h

end

/-- `n` CPUs in guarded sections: what each has left of its section, and the spinlocks it
holds. -/
structure Cpus (n : Nat) where
  todo : Fin n → List LockEvent
  held : Fin n → List SpinLock

namespace Cpus
variable {n : Nat}

/-- Some CPU holds `l`. -/
def Taken (c : Cpus n) (l : SpinLock) : Prop := ∃ q, l ∈ c.held q

instance (c : Cpus n) (l : SpinLock) : Decidable (c.Taken l) :=
  inferInstanceAs (Decidable (∃ q, l ∈ c.held q))

/-- CPU `p` makes the next move of its section; an `acquire` spins, with no move, while some CPU
holds the lock. -/
def step (c : Cpus n) (p : Fin n) : Option (Cpus n) :=
  match c.todo p with
  | [] => none
  | .acquire l :: es =>
    if c.Taken l then none
    else some ⟨Function.update c.todo p es, Function.update c.held p (l :: c.held p)⟩
  | .release l :: es =>
    some ⟨Function.update c.todo p es, Function.update c.held p ((c.held p).erase l)⟩
  | _ :: es => some ⟨Function.update c.todo p es, c.held⟩

/-- The states of CPUs that run sections from `S`, each begun by a CPU that has finished its
last one. -/
inductive Reachable (S : List LockEvent → Prop) : Cpus n → Prop
  | init : Reachable S ⟨fun _ => [], fun _ => []⟩
  | begin {c : Cpus n} (p : Fin n) {es : List LockEvent} : Reachable S c → c.todo p = [] → S es →
      Reachable S ⟨Function.update c.todo p es, c.held⟩
  | step {c c' : Cpus n} (p : Fin n) : Reachable S c → c.step p = some c' → Reachable S c'

/-- What holds along every run: the rest of each CPU's section keeps the discipline from what it
holds to nothing, and no two CPUs hold one spinlock. -/
structure Inv (c : Cpus n) : Prop where
  discipline : ∀ p, discipline (c.held p) (c.todo p) = some []
  exclusive : ∀ p q l, l ∈ c.held p → l ∈ c.held q → p = q

variable {c : Cpus n}

theorem Inv.held_nil (hi : c.Inv) {p : Fin n} (h : c.todo p = []) : c.held p = [] := by
  simpa [h, PetersonTournament.discipline] using hi.discipline p

theorem Inv.update (hi : c.Inv) {p : Fin n} {es : List LockEvent} {H : List SpinLock}
    (hd : PetersonTournament.discipline H es = some []) (hH : ∀ x ∈ H, x ∈ c.held p ∨ ¬ c.Taken x) :
    Inv ⟨Function.update c.todo p es, Function.update c.held p H⟩ where
  discipline q := by
    by_cases hq : q = p
    · subst hq; simpa using hd
    · simpa [Function.update_noteq hq] using hi.discipline q
  exclusive q q' x hx hx' := by
    have key : ∀ q, x ∈ Function.update c.held p H q → x ∈ c.held q ∨ (q = p ∧ ¬ c.Taken x) :=
      fun q h => by
        by_cases hq : q = p
        · subst hq
          exact (hH x (by simpa using h)).imp_right fun ht => ⟨rfl, ht⟩
        · exact .inl (by simpa [Function.update_noteq hq] using h)
    rcases key q hx with hx | ⟨hqp, ht⟩ <;> rcases key q' hx' with hx' | ⟨hq'p, ht'⟩
    · exact hi.exclusive q q' x hx hx'
    · exact absurd ⟨q, hx⟩ ht'
    · exact absurd ⟨q', hx'⟩ ht
    · exact hqp.trans hq'p.symm

theorem Inv.begin (hi : c.Inv) {p : Fin n} {es : List LockEvent} (hp : c.todo p = [])
    (hes : PetersonTournament.discipline [] es = some []) :
    Inv ⟨Function.update c.todo p es, c.held⟩ := by
  have he : Function.update c.held p [] = c.held := by rw [← hi.held_nil hp, Function.update_eq_self]
  simpa [he] using hi.update (p := p) hes nofun

theorem Inv.step (hi : c.Inv) {p : Fin n} {c' : Cpus n} (hs : c.step p = some c') : c'.Inv := by
  have hd := hi.discipline p
  unfold Cpus.step at hs
  split at hs
  · cases hs
  · next l es he =>
    split at hs
    · cases hs
    · next ht =>
      cases hs
      rw [he] at hd
      refine hi.update (discipline_acquire hd).2 fun x hx => ?_
      rcases List.mem_cons.1 hx with rfl | hx
      · exact .inr ht
      · exact .inl hx
  · next l es he =>
    cases hs
    rw [he] at hd
    exact hi.update (discipline_release hd).2 fun x hx => .inl (List.mem_of_mem_erase hx)
  · next e es hacq hrel he =>
    cases hs
    rw [he] at hd
    have hd' : PetersonTournament.discipline (c.held p) es = some [] := by
      cases e with
      | acquire l => exact (hacq l rfl).elim
      | release l => exact (hrel l rfl).elim
      | touch i => exact (discipline_touch hd).2
      | yield => exact (discipline_yield hd).2
    simpa using hi.update hd' fun x hx => .inl hx

theorem Reachable.inv {S : List LockEvent → Prop}
    (hS : ∀ es, S es → PetersonTournament.discipline [] es = some []) {c : Cpus n}
    (hc : c.Reachable S) : c.Inv := by
  induction hc with
  | init => exact ⟨fun _ => rfl, fun _ _ _ h => by simp at h⟩
  | begin p _ hp hes ih => exact ih.begin hp (hS _ hes)
  | step p _ hs ih => exact ih.step hs

end Cpus

end PetersonTournament
