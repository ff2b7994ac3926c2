import Mathlib.Data.Fintype.Card
import Mathlib.Data.Finset.Lattice.Fold
import PetersonTournament.TreeLiveness

/-!
# The program `tournament`

`main` of `user/tournament.c`, from the point where `tournament_create` has returned: process `p`
holds tournament id `p` and runs `tournament_acquire`, its critical section and
`tournament_release` once, with `exit(1)` when one of them returns -1. A child then calls
`exit(0)`; the original process (id 0) first calls `wait` once for each of its `N - 1` children,
and goes on when a call returns -1. `wait` collects a child that has exited, returns -1 when no
child is left, and sleeps otherwise; which child it collects the program never reads, so the
model counts them.

Seen through `TournamentMain.toTournament`, a run of the program is a run of `Tournament` in which
each participant goes through one cycle (`exec_toTournament`), so the tree's invariant and its
liveness argument apply to it.
-/

namespace PetersonTournament

/-- Where a process of `tournament` is. -/
inductive MainPc
  /-- In `tournament_acquire`, its critical section or `tournament_release`; `idle` before the
  first call. -/
  | cycle (ph : Phase)
  /-- `tournament_release` returned 0. -/
  | released
  /-- The original process in its loop of `wait` calls, `i` of them made. -/
  | reaping (i : Nat)
  /-- `exit(status)`. -/
  | exited (status : Int)
  deriving DecidableEq, Repr

namespace MainPc

/-- Where a step of the cycle leaves the process: `tournament_release` returning 0 ends the
cycle, and a call that returns -1 is followed by `exit(1)`. -/
def ofPhase : Phase → MainPc
  | .idle => .released
  | .failed => .exited 1
  | ph => .cycle ph

/-- The process as a participant of `Tournament`: between two cycles once `tournament_release`
has returned, gone once it is past that. -/
def phase : MainPc → Phase
  | .cycle ph => ph
  | .released => .idle
  | .reaping _ => .exited
  | .exited status => if status = 0 then .exited else .failed

/-- Past `tournament_release`. -/
def isDone : MainPc → Bool
  | .reaping _ | .exited _ => true
  | _ => false

/-- `exit` has run. -/
def isExited : MainPc → Bool
  | .exited _ => true
  | _ => false

@[simp] theorem ofPhase_phase (ph : Phase) : (ofPhase ph).phase = ph := by
  cases ph <;> rfl

@[simp] theorem ofPhase_ne_reaping (ph : Phase) (i : Nat) : ofPhase ph ≠ .reaping i := by
  cases ph <;> simp [ofPhase]

@[simp] theorem ofPhase_ne_exited_zero (ph : Phase) : ofPhase ph ≠ .exited 0 := by
  cases ph <;> simp [ofPhase]

theorem phase_eq_critical {x : MainPc} : x.phase = .critical ↔ x = .cycle .critical := by
  cases x with
  | exited st => by_cases h : st = 0 <;> simp [phase, h]
  | _ => simp [phase]

end MainPc

/-- The lock table, where each of the `n` processes is, and how many children the original
process's `wait` calls have collected. -/
structure TournamentMain (n : Nat) where
  ptable : PTable
  pc : Fin n → MainPc
  collected : Nat

/-- The children of the original process: tournament ids `1 .. N-1`. -/
def children (n : Nat) : Finset (Fin n) := Finset.univ.filter fun q => (q : Nat) ≠ 0

/-- What the original process's `wait(0)` does. -/
inductive WaitOutcome
  /-- Returns the pid of a child that has exited, which it collects. -/
  | collects
  /-- Returns -1: the process has no child left. -/
  | noChild
  /-- Sleeps until a child exits. -/
  | sleeps
  deriving DecidableEq, Repr

namespace TournamentMain
variable {n : Nat}

/-- The children that have called `exit`, collected by `wait` or not. -/
def exitedChildren (s : TournamentMain n) : Nat :=
  ((children n).filter fun q => (s.pc q).isExited).card

def wait (s : TournamentMain n) : WaitOutcome :=
  if s.collected < s.exitedChildren then .collects
  else if n - 1 ≤ s.collected then .noChild
  else .sleeps

variable (g : Globals)

/-- One atomic step of process `p`, when it can make one. It runs on the caller's globals with
`my_id = p`, as `tournament_create` left them; its tournament id is `p`, and `num_processes` of
the loop of `wait` calls is `N`. -/
def step (s : TournamentMain n) (p : Fin n) : Option (TournamentMain n) :=
  match s.pc p with
  | .cycle ph => (participantStep (g.child p) s.ptable ph).map fun r =>
      { s with ptable := r.2, pc := Function.update s.pc p (MainPc.ofPhase r.1) }
  | .released =>
    some { s with pc := Function.update s.pc p (if (p : Nat) = 0 then .reaping 0 else .exited 0) }
  | .reaping i =>
    if i < n - 1 then
      match s.wait with
      | .collects =>
        some { s with pc := Function.update s.pc p (.reaping (i + 1)), collected := s.collected + 1 }
      | .noChild => some { s with pc := Function.update s.pc p (.reaping (i + 1)) }
      | .sleeps => none
    else some { s with pc := Function.update s.pc p (.exited 0) }
  | .exited _ => none

/-- Every process has returned from `tournament_create` with the lock table `t₀`. -/
def start (t₀ : PTable) : TournamentMain n := ⟨t₀, fun _ => .cycle .idle, 0⟩

inductive Reachable (t₀ : PTable) : TournamentMain n → Prop
  | start : Reachable t₀ (start t₀)
  | step {s s' : TournamentMain n} (p : Fin n) :
      Reachable t₀ s → s.step g p = some s' → Reachable t₀ s'

/-- The states along an infinite schedule; a process that cannot move leaves the state as it
is. -/
def exec (s : TournamentMain n) (σ : Nat → Fin n) : Nat → TournamentMain n
  | 0 => s
  | k + 1 => ((exec s σ k).step g (σ k)).getD (exec s σ k)

/-- The program's state as a state of `Tournament`. -/
def toTournament (s : TournamentMain n) : Tournament n := ⟨s.ptable, fun p => (s.pc p).phase⟩

/-- The move of `Tournament` that a step of `p` is: leaving the tournament once
`tournament_release` has returned, its own next step otherwise. -/
def move (s : TournamentMain n) (p : Fin n) : TournamentMove n :=
  if s.pc p = .released then .exit p else .run p

variable {g}

@[simp] theorem start_toTournament (t₀ : PTable) :
    (start t₀ : TournamentMain n).toTournament = ⟨t₀, fun _ => .idle⟩ := rfl

@[simp] theorem toTournament_ptable (s : TournamentMain n) : s.toTournament.ptable = s.ptable := rfl

@[simp] theorem toTournament_phase (s : TournamentMain n) (p : Fin n) :
    s.toTournament.phase p = (s.pc p).phase := rfl

theorem toTournament_update (s : TournamentMain n) (p : Fin n) (x : MainPc) (t : PTable)
    (k : Nat) : (⟨t, Function.update s.pc p x, k⟩ : TournamentMain n).toTournament =
      ⟨t, Function.update s.toTournament.phase p x.phase⟩ := by
  simp only [toTournament, Tournament.mk.injEq, true_and]
  exact Function.comp_update MainPc.phase s.pc p x

/-- Each step of the program is, seen as a state of `Tournament`, the move `move` names, or no
move at all. -/
theorem step_toTournament (s : TournamentMain n) (p : Fin n) :
    ((s.step g p).getD s).toTournament = (s.toTournament.step g (s.move p)).getD s.toTournament := by
  have hself : ∀ x : MainPc, x.phase = .exited → (s.pc p).phase = .exited →
      (⟨s.ptable, Function.update s.pc p x, s.collected⟩ : TournamentMain n).toTournament =
        s.toTournament := fun x hx hp => by
    rw [toTournament_update, hx, ← hp]
    exact congrArg _ (Function.update_eq_self _ _)
  cases hp : s.pc p with
  | cycle ph =>
    simp only [step, hp, move, reduceCtorEq, if_false, Tournament.step, toTournament_ptable,
      toTournament_phase, MainPc.phase]
    cases participantStep (g.child p) s.ptable ph <;> simp [toTournament_update]
  | released =>
    simp only [step, hp, move, if_true, Tournament.step, toTournament_phase, MainPc.phase,
      Option.getD_some]
    rw [toTournament_update]
    split <;> rfl
  | reaping i =>
    have hpe : (s.pc p).phase = .exited := by rw [hp]; rfl
    have hnone : s.toTournament.step g (s.move p) = none := by
      simp [move, hp, Tournament.step, toTournament, MainPc.phase, participantStep]
    rw [hnone, Option.getD_none]
    simp only [step, hp]
    split
    · split
      · exact hself _ rfl hpe
      · exact hself _ rfl hpe
      · rfl
    · exact hself _ rfl hpe
  | exited st =>
    have hnone : s.toTournament.step g (s.move p) = none := by
      by_cases h0 : st = 0 <;>
        simp [move, hp, Tournament.step, toTournament, MainPc.phase, participantStep, h0]
    simp [step, hp, hnone]

/-- A run of the program, seen as states of `Tournament`, is the run of `Tournament` under the
schedule of the moves its steps are. -/
theorem exec_toTournament (s : TournamentMain n) (σ : Nat → Fin n) : ∀ k,
    (s.exec g σ k).toTournament =
      s.toTournament.exec g (fun j => (s.exec g σ j).move (σ j)) k
  | 0 => rfl
  | k + 1 => by
    rw [exec, step_toTournament, exec_toTournament s σ k]
    rfl

theorem Reachable.toTournament {t₀ : PTable} {s : TournamentMain n} (hs : Reachable g t₀ s) :
    Tournament.Reachable g t₀ s.toTournament := by
  induction hs with
  | start => exact .init
  | @step s s' p _ h ih =>
    have he := step_toTournament (g := g) s p
    rw [h, Option.getD_some] at he
    cases h' : s.toTournament.step g (s.move p) with
    | none =>
      rw [h', Option.getD_none] at he
      rwa [he]
    | some u =>
      rw [h', Option.getD_some] at he
      exact he ▸ ih.step _ h'

theorem exec_succ_of_step {s s' : TournamentMain n} {σ : Nat → Fin n} {k : Nat}
    (h : (s.exec g σ k).step g (σ k) = some s') : s.exec g σ (k + 1) = s' := by
  rw [exec, h]
  rfl

theorem exec_succ_of_none {s : TournamentMain n} {σ : Nat → Fin n} {k : Nat}
    (h : (s.exec g σ k).step g (σ k) = none) : s.exec g σ (k + 1) = s.exec g σ k := by
  rw [exec, h]
  rfl

theorem Reachable.exec {t₀ : PTable} {s : TournamentMain n} (hs : Reachable g t₀ s)
    (σ : Nat → Fin n) : ∀ k, Reachable g t₀ (s.exec g σ k)
  | 0 => hs
  | k + 1 => by
    cases h : (s.exec g σ k).step g (σ k) with
    | none => exact exec_succ_of_none h ▸ hs.exec σ k
    | some s' => exact exec_succ_of_step h ▸ (hs.exec σ k).step _ h
theorem children_card : (children n).card = n - 1 := by
  cases n with
  | zero => rfl
  | succ m =>
    have h : children (m + 1) = Finset.univ.erase 0 := by
      ext q
      simp [children, Fin.ext_iff]
    rw [h, Finset.card_erase_of_mem (Finset.mem_univ _), Finset.card_fin]

theorem exitedChildren_le (s : TournamentMain n) : s.exitedChildren ≤ n - 1 :=
  children_card (n := n) ▸ Finset.card_filter_le _ _

theorem isExited_of_exitedChildren (s : TournamentMain n) (h : n - 1 ≤ s.exitedChildren)
    {q : Fin n} (hq : (q : Nat) ≠ 0) : (s.pc q).isExited :=
  Finset.filter_card_eq ((s.exitedChildren_le.antisymm h).trans children_card.symm) q
    (by simp [children, hq])

theorem exitedChildren_eq (s : TournamentMain n)
    (h : ∀ q : Fin n, (q : Nat) ≠ 0 → (s.pc q).isExited) : s.exitedChildren = n - 1 := by
  rw [exitedChildren, Finset.filter_true_of_mem (s := children n)
    fun q hq => h q (by simpa [children] using hq), children_card]

theorem exitedChildren_le_update (s : TournamentMain n) {p : Fin n} {x : MainPc} (t : PTable)
    (k : Nat) (hp : (s.pc p).isExited = false) :
    s.exitedChildren ≤ (⟨t, Function.update s.pc p x, k⟩ : TournamentMain n).exitedChildren := by
  refine Finset.card_le_card fun q hq => ?_
  simp only [Finset.mem_filter] at hq ⊢
  refine ⟨hq.1, ?_⟩
  by_cases hqp : q = p
  · subst hqp
    simp [hp] at hq
  · rw [Function.update_noteq hqp]
    exact hq.2

theorem step_cases {s s' : TournamentMain n} {p : Fin n} (h : s.step g p = some s') :
    (∃ ph ph' t, s.pc p = .cycle ph ∧ participantStep (g.child p) s.ptable ph = some (ph', t) ∧
      s' = ⟨t, Function.update s.pc p (MainPc.ofPhase ph'), s.collected⟩) ∨
    (s.pc p = .released ∧ s' = ⟨s.ptable,
      Function.update s.pc p (if (p : Nat) = 0 then .reaping 0 else .exited 0), s.collected⟩) ∨
    (∃ i, s.pc p = .reaping i ∧ i < n - 1 ∧ s.wait = .collects ∧
      s' = ⟨s.ptable, Function.update s.pc p (.reaping (i + 1)), s.collected + 1⟩) ∨
    (∃ i, s.pc p = .reaping i ∧ i < n - 1 ∧ s.wait = .noChild ∧
      s' = ⟨s.ptable, Function.update s.pc p (.reaping (i + 1)), s.collected⟩) ∨
    (∃ i, s.pc p = .reaping i ∧ ¬ i < n - 1 ∧
      s' = ⟨s.ptable, Function.update s.pc p (.exited 0), s.collected⟩) := by
  cases hp : s.pc p with
  | cycle ph =>
    simp only [step, hp, Option.map_eq_some'] at h
    obtain ⟨⟨ph', t⟩, hr, rfl⟩ := h
    exact .inl ⟨ph, ph', t, rfl, hr, rfl⟩
  | released =>
    simp only [step, hp, Option.some.injEq] at h
    exact .inr (.inl ⟨rfl, h.symm⟩)
  | reaping i =>
    simp only [step, hp] at h
    split_ifs at h with hi
    · cases hw : s.wait <;> simp only [hw, Option.some.injEq, reduceCtorEq] at h
      · exact .inr (.inr (.inl ⟨i, rfl, hi, rfl, h.symm⟩))
      · exact .inr (.inr (.inr (.inl ⟨i, rfl, hi, rfl, h.symm⟩)))
    · simp only [Option.some.injEq] at h
      exact .inr (.inr (.inr (.inr ⟨i, rfl, hi, h.symm⟩)))
  | exited st => simp [step, hp] at h

theorem step_pc_of_ne {s s' : TournamentMain n} {p q : Fin n} (h : s.step g p = some s')
    (hq : q ≠ p) : s'.pc q = s.pc q := by
  rcases step_cases h with ⟨_, _, _, -, -, rfl⟩ | ⟨-, rfl⟩ | ⟨_, -, -, -, rfl⟩ |
    ⟨_, -, -, -, rfl⟩ | ⟨_, -, -, rfl⟩ <;> exact Function.update_noteq hq _ _

theorem step_isDone {s s' : TournamentMain n} {p : Fin n} (h : s.step g p = some s')
    (hp : (s.pc p).isDone) : (s'.pc p).isDone := by
  rcases step_cases h with ⟨_, _, _, hp', -, -⟩ | ⟨hp', -⟩ | ⟨_, -, -, -, rfl⟩ |
    ⟨_, -, -, -, rfl⟩ | ⟨_, -, -, rfl⟩
  · simp [hp', MainPc.isDone] at hp
  · simp [hp', MainPc.isDone] at hp
  all_goals simp [MainPc.isDone]

theorem step_isExited {s s' : TournamentMain n} {p : Fin n} (h : s.step g p = some s')
    (hp : (s.pc p).isExited) : (s'.pc p).isExited := by
  rcases step_cases h with ⟨_, _, _, hp', -, -⟩ | ⟨hp', -⟩ | ⟨_, hp', -⟩ | ⟨_, hp', -⟩ |
    ⟨_, hp', -⟩ <;> simp [hp', MainPc.isExited] at hp

/-- What holds in every state of the program, beside the tree's invariant. -/
structure Inv (s : TournamentMain n) : Prop where
  /-- Only the original process gets to its loop of `wait` calls, and each call so far has
  collected a child. -/
  reaper : ∀ q i, s.pc q = .reaping i → (q : Nat) = 0 ∧ s.collected = i
  /-- Nothing is collected before that loop. -/
  before : ∀ q : Fin n, (q : Nat) = 0 → (s.pc q).isDone = false → s.collected = 0
  collected_le : s.collected ≤ s.exitedChildren
  /-- The original process exits after collecting all its children. -/
  parent_exit : ∀ q : Fin n, (q : Nat) = 0 → s.pc q = .exited 0 → s.collected = n - 1

theorem inv_start (t₀ : PTable) : (start t₀ : TournamentMain n).Inv where
  reaper _ _ h := by simp [start] at h
  before _ _ _ := rfl
  collected_le := Nat.zero_le _
  parent_exit _ _ h := by simp [start] at h

theorem Inv.update {s : TournamentMain n} (hi : s.Inv) {p : Fin n} {x : MainPc} (t : PTable)
    {k : Nat} (hp : (s.pc p).isExited = false) (hk : k ≠ s.collected → (p : Nat) = 0)
    (hreap : ∀ i, x = .reaping i → (p : Nat) = 0 ∧ k = i)
    (hbefore : (p : Nat) = 0 → x.isDone = false → k = 0) (hle : k ≤ s.exitedChildren)
    (hexit : (p : Nat) = 0 → x = .exited 0 → k = n - 1) :
    Inv ⟨t, Function.update s.pc p x, k⟩ := by
  -- `collected` moves only with a step of the original process
  have other : ∀ q, q ≠ p → (q : Nat) = 0 → k = s.collected := fun q hq h0 => by
    by_contra hne
    exact hq (Fin.ext (h0.trans (hk hne).symm))
  refine ⟨fun q i hq => ?_, fun q h0 hq => ?_, hle.trans (s.exitedChildren_le_update t k hp),
    fun q h0 hq => ?_⟩ <;> dsimp only at hq <;> by_cases hqp : q = p
  · subst hqp
    exact hreap i (by simpa using hq)
  · rw [Function.update_noteq hqp] at hq
    obtain ⟨h0, hc⟩ := hi.reaper q i hq
    exact ⟨h0, (other q hqp h0).trans hc⟩
  · subst hqp
    exact hbefore h0 (by simpa using hq)
  · rw [Function.update_noteq hqp] at hq
    exact (other q hqp h0).trans (hi.before q h0 hq)
  · subst hqp
    exact hexit h0 (by simpa using hq)
  · rw [Function.update_noteq hqp] at hq
    exact (other q hqp h0).trans (hi.parent_exit q h0 hq)

theorem Inv.step {s s' : TournamentMain n} (hi : s.Inv) {p : Fin n} (h : s.step g p = some s') :
    s'.Inv := by
  rcases step_cases h with ⟨ph, ph', t, hp, -, rfl⟩ | ⟨hp, rfl⟩ | ⟨i, hp, hlt, hw, rfl⟩ |
    ⟨i, hp, hlt, hw, rfl⟩ | ⟨i, hp, hlt, rfl⟩
  · -- a step of the cycle
    exact hi.update t (by simp [hp, MainPc.isExited]) (fun h => absurd rfl h) (by simp)
      (fun h0 _ => hi.before p h0 (by simp [hp, MainPc.isDone])) hi.collected_le (by simp)
  · -- back from `tournament_release`
    by_cases h0 : (p : Nat) = 0
    · rw [if_pos h0]
      exact hi.update _ (by simp [hp, MainPc.isExited]) (fun h => absurd rfl h)
        (fun j hj => ⟨h0, by cases hj; exact hi.before p h0 (by simp [hp, MainPc.isDone])⟩)
        (by simp [MainPc.isDone]) hi.collected_le (by simp)
    · rw [if_neg h0]
      exact hi.update _ (by simp [hp, MainPc.isExited]) (fun h => absurd rfl h) (by simp)
        (fun h => absurd h h0) hi.collected_le (fun h => absurd h h0)
  · -- `wait` collects a child
    obtain ⟨h0, hc⟩ := hi.reaper p i hp
    have hlt' : s.collected < s.exitedChildren := by
      simp only [wait] at hw
      split_ifs at hw with h
      exact h
    exact hi.update _ (by simp [hp, MainPc.isExited]) (fun _ => h0)
      (fun j hj => ⟨h0, by cases hj; omega⟩) (by simp [MainPc.isDone]) hlt' (by simp)
  · -- `wait` returns -1 only with no child left, and `i < N - 1` children were collected
    obtain ⟨-, hc⟩ := hi.reaper p i hp
    simp only [wait] at hw
    split_ifs at hw
    omega
  · -- `exit(0)` after the loop
    obtain ⟨-, hc⟩ := hi.reaper p i hp
    have := s.exitedChildren_le
    have := hi.collected_le
    exact hi.update _ (by simp [hp, MainPc.isExited]) (fun h => absurd rfl h) (by simp)
      (by simp [MainPc.isDone]) hi.collected_le (fun _ _ => by omega)

theorem Reachable.inv {t₀ : PTable} {s : TournamentMain n} (hs : Reachable g t₀ s) : s.Inv := by
  induction hs with
  | start => exact inv_start _
  | step _ _ h ih => exact ih.step h

theorem eq_exited_zero {c : Config} {s : TournamentMain (2 ^ c.levels)}
    (hT : TreeInv c s.toTournament) {q : Fin (2 ^ c.levels)} (hq : (s.pc q).isExited) :
    s.pc q = .exited 0 := by
  cases h : s.pc q with
  | exited st =>
    have := hT.notFailed q
    by_cases hst : st = 0
    · rw [hst]
    · simp [h, MainPc.phase, hst] at this
  | _ => simp [h, MainPc.isExited] at hq

end TournamentMain

/-- In every state of `tournament` after `tournament_create` returned 0: the state is one of
`Tournament`; at most one process is in its critical section; no process has called `exit(1)`;
inside the original process's loop, `wait` does not return -1; and the original process calls
`exit(0)` only after all its children have exited. -/
theorem tournament_main_safe {n : Int} {g₀ g : Globals} {t₀ t : PTable}
    (hc : tournamentCreate n g₀ t₀ = (0, g, t)) {s : TournamentMain g.nProcesses}
    (hs : TournamentMain.Reachable g t s) :
    Tournament.Reachable g t s.toTournament ∧
      (∀ p q, s.pc p = .cycle .critical → s.pc q = .cycle .critical → p = q) ∧
      (∀ p st, s.pc p = .exited st → st = 0) ∧
      (∀ p i, s.pc p = .reaping i → i < g.nProcesses - 1 → s.wait ≠ .noChild) ∧
      (∀ p : Fin g.nProcesses, (p : Nat) = 0 → s.pc p = .exited 0 → ∀ q, (s.pc q).isExited) := by
  obtain ⟨c, rfl, ht⟩ := tournamentCreate_config hc
  have hT := hs.toTournament.treeInv ht
  have hi := hs.inv
  refine ⟨hs.toTournament, fun p q hp hq => hT.mutex ?_ ?_, fun p st hp => ?_,
    fun p i hp hlt hw => ?_, fun p h0 hp q => ?_⟩
  · simp [hp, MainPc.phase]
  · simp [hq, MainPc.phase]
  · simpa [hp] using s.eq_exited_zero hT (q := p) (by simp [hp, MainPc.isExited])
  · obtain ⟨-, hc⟩ := hi.reaper p i hp
    simp only [TournamentMain.wait] at hw
    split_ifs at hw
    omega
  · by_cases hq : (q : Nat) = 0
    · obtain rfl : q = p := Fin.ext (hq.trans h0.symm)
      simp [hp, MainPc.isExited]
    · exact s.isExited_of_exitedChildren (hi.parent_exit p h0 hp ▸ hi.collected_le) hq

/-- `tournament 2` after nine steps taken in turn: the child has waited for the original
process's lock and now holds it, while the original process sleeps in its first `wait`. -/
def duelReaping : TournamentMain 2 := (TournamentMain.start duelTable).exec duelGlobals alternate 9

theorem duelReaping_safe :
    duelReaping.pc 0 = .reaping 0 ∧ duelReaping.pc 1 = .cycle .critical ∧
      Tournament.Reachable duelGlobals duelTable duelReaping.toTournament ∧
      (∀ p q, duelReaping.pc p = .cycle .critical → duelReaping.pc q = .cycle .critical → p = q) ∧
      (∀ p st, duelReaping.pc p = .exited st → st = 0) ∧
      (∀ p i, duelReaping.pc p = .reaping i → i < duelGlobals.nProcesses - 1 →
        duelReaping.wait ≠ .noChild) ∧
      (∀ p : Fin 2, (p : Nat) = 0 → duelReaping.pc p = .exited 0 → ∀ q, (duelReaping.pc q).isExited) :=
  ⟨rfl, rfl, tournament_main_safe tournamentCreate_two (TournamentMain.Reachable.start.exec alternate 9)⟩

end PetersonTournament
