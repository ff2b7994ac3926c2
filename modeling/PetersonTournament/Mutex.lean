import Mathlib.Logic.Function.Basic
import Mathlib.Logic.Relation

/-!
# An atomic lock

What the tournament is for, stated without any Peterson lock: `n` clients take one lock in turn.
A client asks for the lock, takes it when it has no owner, gives it back, and then finishes
leaving. The lock's owner is always the one client in its critical section, so no two clients
are ever in their critical sections together.
-/

namespace PetersonTournament

/-- Where a client of the lock is. -/
inductive MutexPc
  | idle
  | trying
  | critical
  | leaving
  | exited
  deriving DecidableEq, Repr

/-- How one move of a client of an implementation may change where it is: by one of the
lock's moves, or two of them at once (`enter`, `releaseAll`), or not at all. -/
inductive MutexPc.Moves : MutexPc → MutexPc → Prop
  | stay (x : MutexPc) : Moves x x
  | request : Moves .idle .trying
  | enter : Moves .idle .critical
  | acquire : Moves .trying .critical
  | release : Moves .critical .leaving
  | releaseAll : Moves .critical .idle
  | leave : Moves .leaving .idle
  | exit : Moves .idle .exited

/-- The lock's owner and where each of its `n` clients is. -/
structure Mutex (n : Nat) where
  owner : Option (Fin n)
  pc : Fin n → MutexPc

namespace Mutex
variable {n : Nat}

/-- No owner, every client at the start. -/
def init : Mutex n := ⟨none, fun _ => .idle⟩

/-- The moves of the clients. -/
inductive Step : Mutex n → Mutex n → Prop
  | request {m : Mutex n} (p : Fin n) : m.pc p = .idle →
      Step m ⟨m.owner, Function.update m.pc p .trying⟩
  | acquire {m : Mutex n} (p : Fin n) : m.pc p = .trying → m.owner = none →
      Step m ⟨some p, Function.update m.pc p .critical⟩
  | release {m : Mutex n} (p : Fin n) : m.pc p = .critical →
      Step m ⟨none, Function.update m.pc p .leaving⟩
  | leave {m : Mutex n} (p : Fin n) : m.pc p = .leaving →
      Step m ⟨m.owner, Function.update m.pc p .idle⟩
  | exit {m : Mutex n} (p : Fin n) : m.pc p = .idle →
      Step m ⟨m.owner, Function.update m.pc p .exited⟩

inductive Reachable : Mutex n → Prop
  | init : Reachable init
  | step {m m' : Mutex n} : Reachable m → Step m m' → Reachable m'

theorem Reachable.steps {m m' : Mutex n} (h : m.Reachable)
    (hs : Relation.ReflTransGen Step m m') : m'.Reachable := by
  induction hs with
  | refl => exact h
  | tail _ hstep ih => exact ih.step hstep

/-- The owner is the client in its critical section. -/
def Inv (m : Mutex n) : Prop :=
  ∀ p, m.owner = some p ↔ m.pc p = .critical

theorem inv_init : (init : Mutex n).Inv := fun p => by simp [init]

theorem Inv.update {m : Mutex n} (h : m.Inv) {p : Fin n} {o : Option (Fin n)} {y : MutexPc}
    (hp : o = some p ↔ y = .critical) (ho : ∀ q, q ≠ p → (o = some q ↔ m.owner = some q)) :
    Inv ⟨o, Function.update m.pc p y⟩ := fun q => by
  by_cases hq : q = p
  · subst hq
    simpa using hp
  · simpa [Function.update_noteq hq] using (ho q hq).trans (h q)

theorem Inv.owner_ne {m : Mutex n} (h : m.Inv) {p : Fin n} (hp : m.pc p ≠ .critical) :
    m.owner ≠ some p := fun e => hp ((h p).1 e)

theorem Step.inv {m m' : Mutex n} (h : m.Inv) (hs : Step m m') : m'.Inv := by
  cases hs with
  | request p hp =>
    exact h.update (by simpa using h.owner_ne (by simp [hp])) fun _ _ => Iff.rfl
  | acquire p _ ho =>
    refine h.update (by simp) fun q hq => ?_
    simp [ho, Ne.symm hq]
  | release p hp =>
    have ho : m.owner = some p := (h p).2 hp
    exact h.update (by simp) fun q hq => by simp [ho, Ne.symm hq]
  | leave p hp =>
    exact h.update (by simpa using h.owner_ne (by simp [hp])) fun _ _ => Iff.rfl
  | exit p hp =>
    exact h.update (by simpa using h.owner_ne (by simp [hp])) fun _ _ => Iff.rfl

theorem Reachable.inv {m : Mutex n} (h : m.Reachable) : m.Inv := by
  induction h with
  | init => exact inv_init
  | step _ hs ih => exact hs.inv ih

/-- A client's move from `x` to `y` is a run of the lock's moves, provided nobody else is in
the critical section when `p` enters it. -/
theorem moves {m : Mutex n} (h : m.Inv) {p : Fin n} {x y : MutexPc} (hx : m.pc p = x)
    (hm : MutexPc.Moves x y) (hfree : y = .critical → ∀ q, q ≠ p → m.pc q ≠ .critical) :
    Relation.ReflTransGen Step m
      ⟨if y = .critical then some p else if x = .critical then none else m.owner,
        Function.update m.pc p y⟩ := by
  have hnone : y = .critical → x ≠ .critical → m.owner = none := fun hy hxc => by
    cases ho : m.owner with
    | none => rfl
    | some q =>
      have hq := (h q).1 ho
      by_cases e : q = p
      · exact absurd (hx ▸ e ▸ hq) hxc
      · exact absurd hq (hfree hy q e)
  cases hm with
  | stay x =>
    rw [← hx, Function.update_eq_self]
    split
    · next hc => rw [← (h p).2 hc]
    · exact .refl
  | request => exact .single (by simpa using Step.request p hx)
  | enter =>
    refine .tail (.single (Step.request p hx)) ?_
    simpa using Step.acquire (m := ⟨m.owner, Function.update m.pc p .trying⟩) p (by simp)
      (hnone rfl nofun)
  | acquire => simpa [hnone rfl nofun] using .single (Step.acquire p hx (hnone rfl nofun))
  | release => exact .single (by simpa using Step.release p hx)
  | releaseAll =>
    refine .tail (.single (Step.release p hx)) ?_
    simpa using Step.leave (m := ⟨none, Function.update m.pc p .leaving⟩) p (by simp)
  | leave => exact .single (by simpa using Step.leave p hx)
  | exit => exact .single (by simpa using Step.exit p hx)

end Mutex

end PetersonTournament
