import PetersonTournament.Mutex
import PetersonTournament.TreeInvariant

/-!
# The tournament implements an atomic lock

Seen through `Phase.mutexPc`, every step of a participant is a run of the atomic lock of `Mutex`,
or no move of it at all: a participant is trying from `tournament_acquire` until it passes the
root, holds the lock from then until its `peterson_release` at the root, and is leaving while
it releases the levels below. The lock's owner is the participant past the root's wait
(`TreeInv.root_unique`); entering needs no owner, which is what the tree's invariant gives.
-/

namespace PetersonTournament

/-- A participant's place as a client of the lock it implements. -/
def Phase.mutexPc : Phase → MutexPc
  | .idle => .idle
  | .acquiring _ | .waiting _ => .trying
  | .critical => .critical
  | .releasing l => if l = 0 then .critical else .leaving
  | .failed | .exited => .exited

theorem Phase.mutexPc_eq_critical {ph : Phase} : ph.mutexPc = .critical ↔ ph.holds 0 := by
  cases ph <;> simp [Phase.mutexPc, Phase.holds]

theorem afterAcquire_acquired_mutexPc (l : Nat) :
    (afterAcquire l .acquired).mutexPc = if l = 0 then .critical else .trying := by
  by_cases h0 : l = 0 <;> simp [afterAcquire, Phase.mutexPc, h0]

/-- `a` is the lock seen in the tournament state `s`. -/
structure Tournament.Abstracts {n : Nat} (s : Tournament n) (a : Mutex n) : Prop where
  pc : ∀ p, a.pc p = (s.phase p).mutexPc
  owner : ∀ p, a.owner = some p ↔ (s.phase p).mutexPc = .critical

namespace Tournament
variable {n : Nat} {s : Tournament n} {a : Mutex n}

theorem Abstracts.inv (ha : s.Abstracts a) : a.Inv := fun p => (ha.owner p).trans (by rw [ha.pc])

theorem abstracts_init (t₀ : PTable) : (⟨t₀, fun _ => .idle⟩ : Tournament n).Abstracts .init :=
  ⟨fun _ => rfl, fun _ => by simp [Mutex.init, Phase.mutexPc]⟩

theorem Abstracts.update (ha : s.Abstracts a) {p : Fin n} {ph' : Phase} (t : PTable)
    (hm : MutexPc.Moves (s.phase p).mutexPc ph'.mutexPc)
    (hfree : ph'.mutexPc = .critical → ∀ q, q ≠ p → (s.phase q).mutexPc ≠ .critical) :
    ∃ a', Relation.ReflTransGen Mutex.Step a a' ∧
      (⟨t, Function.update s.phase p ph'⟩ : Tournament n).Abstracts a' := by
  refine ⟨_, Mutex.moves ha.inv (ha.pc p) hm fun hy q hq => by rw [ha.pc]; exact hfree hy q hq,
    fun q => ?_, fun q => ?_⟩
  · by_cases hq : q = p
    · subst hq
      simp
    · simp [Function.update_noteq hq, ha.pc]
  · by_cases hq : q = p
    · subst hq
      simp only [Function.update_same]
      split
      · simpa
      · split
        · simpa
        · next hy hx => simpa [hy] using (ha.owner q).trans (iff_false_intro hx)
    · simp only [Function.update_noteq hq]
      split
      · next hy => simp [Ne.symm hq, hfree hy q hq]
      · split
        · next _ hx =>
          have ho := (ha.owner p).2 hx
          simp only [reduceCtorEq, false_iff]
          exact fun hc => hq (Option.some.inj (((ha.owner q).2 hc).symm.trans ho))
        · exact ha.owner q

end Tournament

section
variable {c : Config} {s : Tournament (2 ^ c.levels)}

theorem TreeInv.moves_mutex (hi : TreeInv c s) {p : Fin (2 ^ c.levels)} {ph : Phase} {t : PTable}
    (h : participantStep (c.globals p) s.ptable (s.phase p) = some (ph, t)) :
    MutexPc.Moves (s.phase p).mutexPc ph.mutexPc := by
  have hr := hi.inRange p
  cases hs : s.phase p with
  | idle =>
    rw [hs, participantStep_idle, Option.some.injEq, Prod.mk.injEq] at h
    rw [← h.1]
    split
    · exact .enter
    · exact .request
  | critical =>
    rw [hs, participantStep_critical, Option.some.injEq, Prod.mk.injEq] at h
    rw [← h.1]
    split
    · exact .releaseAll
    · exact .stay _
  | acquiring l | waiting l =>
    have hl : l < c.levels := by simpa [hs, Phase.inRange] using hr
    have ha := hi.active _ (arrayIdx_lt_nodes p.2 hl)
    first
      | rw [hs, participantStep_acquiring_of_active c p.2 hl ha, Option.some.injEq,
          Prod.mk.injEq] at h
      | rw [hs, participantStep_waiting_of_active c p.2 hl ha, Option.some.injEq,
          Prod.mk.injEq] at h
    rw [← h.1]
    split
    · exact .stay _
    · rw [afterAcquire_acquired_mutexPc]
      split
      · exact .acquire
      · exact .stay _
  | releasing l =>
    have hl : l < c.levels := by simpa [hs, Phase.inRange] using hr
    rw [hs, participantStep_releasing_of_active c p.2 hl (hi.active _ (arrayIdx_lt_nodes p.2 hl)),
      Option.some.injEq, Prod.mk.injEq] at h
    rw [← h.1]
    by_cases h0 : l = 0 <;> split <;> simp only [Phase.mutexPc, h0, if_true, if_false,
      Nat.succ_ne_zero]
    · exact .release
    · exact .releaseAll
    · exact .stay _
    · exact .leave
  | failed => exact absurd hs (hi.notFailed p)
  | exited => simp [hs, participantStep] at h

theorem TreeInv.abstracts_step (hi : TreeInv c s) {m : TournamentMove (2 ^ c.levels)}
    {s' : Tournament (2 ^ c.levels)} (h : s.step (c.globals 0) m = some s')
    {a : Mutex (2 ^ c.levels)} (ha : s.Abstracts a) :
    ∃ a', Relation.ReflTransGen Mutex.Step a a' ∧ s'.Abstracts a' := by
  have hi' := hi.step h
  cases m with
  | run p =>
    obtain ⟨⟨ph, t⟩, hst, rfl⟩ := Option.map_eq_some'.1 h
    rw [Config.globals_child] at hst
    refine ha.update t (hi.moves_mutex hst) fun hy q hq hc => hq ?_
    refine hi'.root_unique (q := p) ?_ ?_
    · simpa [Function.update_noteq hq] using Phase.mutexPc_eq_critical.1 hc
    · simpa using Phase.mutexPc_eq_critical.1 hy
  | exit p =>
    simp only [Tournament.step] at h
    split_ifs at h with hp
    cases h
    exact ha.update _ (by rw [hp]; exact .exit) nofun

end

/-- A tournament that `tournament_create` set up implements an atomic lock: each reachable state
is seen as a reachable state of `Mutex`, and each move of a participant as a run of the lock's
moves (a participant takes the lock when it passes the root's wait and gives it back at its
`peterson_release` of the root), or as no move. -/
theorem tournament_refines_mutex {n : Int} {g₀ g : Globals} {t₀ t : PTable}
    (hc : tournamentCreate n g₀ t₀ = (0, g, t)) {s : Tournament g.nProcesses}
    (hs : Tournament.Reachable g t s) :
    (∃ a, a.Reachable ∧ s.Abstracts a) ∧ ∀ m s' a, s.step g m = some s' → s.Abstracts a →
      ∃ a', Relation.ReflTransGen Mutex.Step a a' ∧ s'.Abstracts a' := by
  obtain ⟨c, rfl, ht⟩ := tournamentCreate_config hc
  refine ⟨?_, fun _ _ _ h ha => (hs.treeInv ht).abstracts_step h ha⟩
  induction hs with
  | init => exact ⟨.init, .init, Tournament.abstracts_init t⟩
  | step _ hs h ih =>
    obtain ⟨a, ha, hab⟩ := ih
    obtain ⟨a', hsteps, hab'⟩ := (hs.treeInv ht).abstracts_step h hab
    exact ⟨a', ha.steps hsteps, hab'⟩

theorem duel_refines_mutex :
    (∃ a, a.Reachable ∧ duelWaiting.Abstracts a) ∧ ∀ m s' a,
      duelWaiting.step duelGlobals m = some s' → duelWaiting.Abstracts a →
      ∃ a', Relation.ReflTransGen Mutex.Step a a' ∧ s'.Abstracts a' :=
  tournament_refines_mutex tournamentCreate_two duelWaiting_reachable

end PetersonTournament
