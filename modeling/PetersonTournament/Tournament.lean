import Mathlib.Data.List.GetD
import PetersonTournament.Library

/-!
# The tournament

`user/tournament.c` over `user/libtournament.c`. After `tournament_create` returns 0, each of the
`N = 2^L` participants (`my_id = 0 .. N-1`, all sharing `peterson_lock_ids_array`) repeats
`tournament_acquire`, its critical section and `tournament_release`, and may `exit(0)` between
two cycles; a call that returns -1 makes it `exit(1)`. The atomic steps are the guarded sections
of `sys_peterson_acquire` and `sys_peterson_release` the two loops call, and the re-checks of the
wait loop. Nothing else touches the locks; in particular no `peterson_destroy`.

Over a tree that `tournament_create` built (`Config`), each step of a participant is one
system call on its node of the level it is at (`participantStep_acquiring` and the lemmas
beside it); later modules use those equations and never unfold `participantStep`.
-/

namespace PetersonTournament

/-- Where a participant of `tournament` is. -/
inductive Phase
  /-- Between two cycles: before `tournament_acquire`, or after `tournament_release` returned. -/
  | idle
  /-- In the loop of `tournament_acquire`, about to call `peterson_acquire` at level `l`. -/
  | acquiring (l : Nat)
  /-- In the wait loop of `sys_peterson_acquire` at level `l`. -/
  | waiting (l : Nat)
  /-- Between a `tournament_acquire` that returned 0 and the start of `tournament_release`. -/
  | critical
  /-- In the loop of `tournament_release`, about to call `peterson_release` at level `l`. -/
  | releasing (l : Nat)
  /-- A call returned -1: `exit(1)`. -/
  | failed
  /-- `exit(0)`. -/
  | exited
  deriving DecidableEq, Repr

/-- The checks at the top of `tournament_acquire` and of `tournament_release`, the same in both:
`none` where one returns -1, `some true` where `N_processes == 1` returns 0 at once, and
`some false` where the loop runs. -/
def Globals.prologue (g : Globals) : Option Bool :=
  if g.myId = -1 then none
  else if g.nProcesses ≤ 0 then none
  else if g.nProcesses = 1 then some true
  else if g.numTotalLocks > 0 ∧ g.petersonLockIdsArray = none then none
  else some false

/-- The bounds check of both loops at level `l`; `array_idx` is never negative here. -/
def Globals.outOfBounds (g : Globals) (l : Nat) : Bool :=
  arrayIdx g.lLevels g.myId.toNat l ≥ g.numTotalLocks

/-- `peterson_lock_ids_array[array_idx]` at level `l`. -/
def Globals.lockIdAt (g : Globals) (l : Nat) : Int :=
  (g.petersonLockIdsArray.getD []).getD (arrayIdx g.lLevels g.myId.toNat l) (-1)

/-- `role_at_level` at level `l`. -/
def Globals.roleAt (g : Globals) (l : Nat) : Int := roleAtLevel g.lLevels g.myId.toNat l

/-- A re-check of the wait loop at level `l`: the kernel tests again the slot and the role it
validated on entry. -/
def Globals.recheckAt (g : Globals) (t : PTable) (l : Nat) : AcquireOutcome :=
  match validLockArgs (g.lockIdAt l) (g.roleAt l) with
  | some (i, r) => petersonRecheck t i r
  | none => .invalidArgument

/-- Where `peterson_acquire` at level `l` leaves the participant: still waiting, on to level
`l - 1`, out of `tournament_acquire` with 0 after level 0, or out with -1. -/
def afterAcquire (l : Nat) : AcquireOutcome → Phase
  | .spin => .waiting l
  | .acquired => if l = 0 then .critical else .acquiring (l - 1)
  | _ => .failed

theorem afterAcquire_eq_waiting {l l' : Nat} {o : AcquireOutcome} :
    afterAcquire l' o = .waiting l ↔ o = .spin ∧ l' = l := by
  cases o <;> simp only [afterAcquire, Phase.waiting.injEq, reduceCtorEq, true_and, false_and,
    iff_false, ne_eq]
  split <;> simp

theorem afterAcquire_waitTest {pl : PetersonLock} (ha : pl.active = true) (r : Fin 2) (l : Nat) :
    afterAcquire l (waitTest pl r) =
      if waitCondition pl r then .waiting l else afterAcquire l .acquired := by
  rw [waitTest_of_active ha]
  split <;> rfl

/-- One atomic step of the participant whose globals are `g`, with the lock table after it;
`none` once it has exited. -/
def participantStep (g : Globals) (t : PTable) : Phase → Option (Phase × PTable)
  | .idle =>
    some (match g.prologue with
      | none => .failed
      | some true => .critical
      | some false => if g.lLevels = 0 then .critical else .acquiring (g.lLevels - 1), t)
  | .acquiring l =>
    if g.outOfBounds l then some (.failed, t)
    else some (afterAcquire l (sysPetersonAcquire t (g.lockIdAt l) (g.roleAt l)).1,
      (sysPetersonAcquire t (g.lockIdAt l) (g.roleAt l)).2)
  | .waiting l => some (afterAcquire l (g.recheckAt t l), t)
  | .critical =>
    some (match g.prologue with
      | none => .failed
      | some true => .idle
      | some false => if g.lLevels = 0 then .idle else .releasing 0, t)
  | .releasing l =>
    if g.outOfBounds l then some (.failed, t)
    else some (if (sysPetersonRelease t (g.lockIdAt l) (g.roleAt l)).1 < 0 then .failed
        else if l + 1 < g.lLevels then .releasing (l + 1) else .idle,
      (sysPetersonRelease t (g.lockIdAt l) (g.roleAt l)).2)
  | .failed | .exited => none

/-- The lock table and where each of the `n` participants is. -/
structure Tournament (n : Nat) where
  ptable : PTable
  phase : Fin n → Phase

inductive TournamentMove (n : Nat)
  /-- The participant's next atomic step. -/
  | run (p : Fin n)
  /-- `exit(0)` between two cycles. -/
  | exit (p : Fin n)

namespace Tournament
variable {n : Nat} (g : Globals)

/-- One move, when it can be made. Participant `p` runs on the caller's globals with
`my_id = p`. -/
def step (s : Tournament n) : TournamentMove n → Option (Tournament n)
  | .run p => (participantStep (g.child p) s.ptable (s.phase p)).map
      fun r => ⟨r.2, Function.update s.phase p r.1⟩
  | .exit p =>
    if s.phase p = .idle then some ⟨s.ptable, Function.update s.phase p .exited⟩ else none

/-- A sequence of moves, when each can be made. -/
def run (s : Tournament n) : List (TournamentMove n) → Option (Tournament n)
  | [] => some s
  | m :: ms => (s.step g m).bind fun s' => run s' ms

/-- The states reachable from the one `tournament_create` leaves: its lock table `t₀`, and every
participant at the start of its first cycle. -/
inductive Reachable (t₀ : PTable) : Tournament n → Prop
  | init : Reachable t₀ ⟨t₀, fun _ => .idle⟩
  | step {s s' : Tournament n} (m : TournamentMove n) :
      Reachable t₀ s → s.step g m = some s' → Reachable t₀ s'

theorem Reachable.run {t₀ : PTable} {s s' : Tournament n} (hs : Reachable g t₀ s) :
    ∀ ms, s.run g ms = some s' → Reachable g t₀ s'
  | [], h => Option.some.inj h ▸ hs
  | m :: ms, h => by
    obtain ⟨s₁, h₁, h₂⟩ := Option.bind_eq_some.1 h
    exact (hs.step m h₁).run ms h₂

/-- The states along an infinite schedule; a move that cannot be made leaves the state as it
is. -/
def exec (s : Tournament n) (σ : Nat → TournamentMove n) : Nat → Tournament n
  | 0 => s
  | k + 1 => ((exec s σ k).step g (σ k)).getD (exec s σ k)

/-- Every participant is scheduled infinitely often. -/
def Fair (σ : Nat → TournamentMove n) : Prop :=
  ∀ p k, ∃ k' ≥ k, σ k' = .run p

variable {g}

theorem exec_succ_of_step {s s' : Tournament n} {σ : Nat → TournamentMove n} {k : Nat}
    (h : (s.exec g σ k).step g (σ k) = some s') : s.exec g σ (k + 1) = s' := by
  rw [exec, h]
  rfl

theorem exec_succ_of_none {s : Tournament n} {σ : Nat → TournamentMove n} {k : Nat}
    (h : (s.exec g σ k).step g (σ k) = none) : s.exec g σ (k + 1) = s.exec g σ k := by
  rw [exec, h]
  rfl

theorem exec_succ_run {s : Tournament n} {σ : Nat → TournamentMove n} {k : Nat} {p : Fin n}
    {ph : Phase} {t : PTable} (hr : σ k = .run p)
    (h : participantStep (g.child p) (s.exec g σ k).ptable ((s.exec g σ k).phase p) =
      some (ph, t)) :
    s.exec g σ (k + 1) = ⟨t, Function.update (s.exec g σ k).phase p ph⟩ :=
  exec_succ_of_step (by rw [hr, step, h]; rfl)

theorem Reachable.exec {t₀ : PTable} {s : Tournament n} (hs : Reachable g t₀ s)
    (σ : Nat → TournamentMove n) : ∀ k, Reachable g t₀ (s.exec g σ k)
  | 0 => hs
  | k + 1 => by
    cases h : (s.exec g σ k).step g (σ k) with
    | none => exact exec_succ_of_none h ▸ hs.exec σ k
    | some s' => exact exec_succ_of_step h ▸ (hs.exec σ k).step _ h

theorem step_phase_of_ne {s s' : Tournament n} {m : TournamentMove n} {q : Fin n}
    (h : s.step g m = some s') (hm : m ≠ .run q) (hq : s.phase q ≠ .idle) :
    s'.phase q = s.phase q := by
  cases m with
  | run p =>
    obtain ⟨⟨ph, t⟩, -, rfl⟩ := Option.map_eq_some'.1 h
    exact Function.update_noteq (fun e : q = p => hm (by rw [e])) _ _
  | exit p =>
    simp only [step] at h
    split_ifs at h with hp
    cases h
    exact Function.update_noteq (fun e : q = p => hq (by rw [e]; exact hp)) _ _

theorem exec_phase_of_ne {s : Tournament n} {σ : Nat → TournamentMove n} {k : Nat} {q : Fin n}
    (hm : σ k ≠ .run q) (hq : (s.exec g σ k).phase q ≠ .idle) :
    (s.exec g σ (k + 1)).phase q = (s.exec g σ k).phase q := by
  cases h : (s.exec g σ k).step g (σ k) with
  | none => rw [exec_succ_of_none h]
  | some s' => rw [exec_succ_of_step h, step_phase_of_ne h hm hq]

/-- Under a fair schedule, a property that only `p`'s own moves can break holds at a move of
`p`. -/
theorem Fair.run_of_stable {σ : Nat → TournamentMove n} (hf : Fair σ) {p : Fin n}
    {Q : Nat → Prop} {k : Nat} (hQ : ∀ j ≥ k, Q j → σ j ≠ .run p → Q (j + 1)) (hk : Q k) :
    ∃ j ≥ k, σ j = .run p ∧ Q j :=
  exists_pick_of_stable (hf p) hQ hk

end Tournament

namespace Phase

/-- The participant has passed the wait at level `l` and not yet released that lock. -/
def holds : Phase → Nat → Prop
  | .acquiring m, l | .waiting m, l => m < l
  | .critical, _ => True
  | .releasing m, l => m ≤ l
  | _, _ => False

/-- The participant's flag is up at level `l`: it holds that lock or waits for it. -/
def registered : Phase → Nat → Prop
  | .acquiring m, l => m < l
  | .waiting m, l | .releasing m, l => m ≤ l
  | .critical, _ => True
  | _, _ => False

/-- The level a phase names lies in the tree. -/
def inRange (L : Nat) : Phase → Prop
  | .acquiring l | .waiting l | .releasing l => l < L
  | _ => True

/-- Neither `exit(1)` nor `exit(0)` has run. -/
def running (ph : Phase) : Prop := ph ≠ .failed ∧ ph ≠ .exited

variable {ph : Phase} {l : Nat}

theorem holds.registered (h : ph.holds l) : ph.registered l := by
  cases ph <;> simp_all [Phase.holds, Phase.registered]
  omega

theorem registered.holds_succ (h : ph.registered l) : ph.holds (l + 1) := by
  cases ph <;> simp_all [Phase.holds, Phase.registered] <;> omega

theorem holds.mono (h : ph.holds l) {l' : Nat} (hl : l ≤ l') : ph.holds l' := by
  cases ph <;> simp_all [Phase.holds] <;> omega

theorem registered.running (h : ph.registered l) : ph.running := by
  cases ph <;> simp_all [Phase.registered, Phase.running]

end Phase

/-- `role_at_level` as a role of the node's lock. -/
def nodeRole (levels myId l : Nat) : Fin 2 :=
  ⟨roleAtLevel levels myId l, by rw [roleAtLevel_eq]; omega⟩

namespace Config
variable (c : Config)

theorem slot_inj {k k' : Nat} (hk : k < 2 ^ c.levels - 1) (hk' : k' < 2 ^ c.levels - 1)
    (h : c.slot k = c.slot k') : k = k' := by
  rw [← c.length_slots] at hk hk'
  rw [slot, slot, List.getD_eq_getElem _ _ hk, List.getD_eq_getElem _ _ hk'] at h
  exact c.nodup_slots.getElem_inj_iff.1 h

theorem slot_mem {k : Nat} (hk : k < 2 ^ c.levels - 1) : c.slot k ∈ c.slots := by
  rw [← c.length_slots] at hk
  rw [slot, List.getD_eq_getElem _ _ hk]
  exact List.getElem_mem hk

theorem mem_lockIds {lockId : Int} {p : Nat}
    (h : lockId ∈ (c.globals p).petersonLockIdsArray.getD []) :
    ∃ k < 2 ^ c.levels - 1, lockId = ((c.slot k : Nat) : Int) := by
  have hm : lockId ∈ c.slots.map fun i : Fin nPetersonLocks => ((i : Nat) : Int) := by
    unfold globals at h
    dsimp only at h
    split_ifs at h
    · exact h
    · simp at h
  obtain ⟨i, hi, rfl⟩ := List.mem_map.1 hm
  obtain ⟨k, hk, rfl⟩ := List.mem_iff_getElem.1 hi
  exact ⟨k, c.length_slots ▸ hk, by rw [slot, List.getD_eq_getElem _ _ hk]⟩

theorem prologue_globals (p : Nat) : (c.globals p).prologue = some (decide (c.levels = 0)) := by
  have h1 : 1 ≤ 2 ^ c.levels := Nat.one_le_two_pow
  unfold Globals.prologue globals
  dsimp only
  rw [if_neg (by omega), if_neg (by omega)]
  by_cases hL : c.levels = 0
  · rw [if_pos (by rw [hL]; rfl), decide_eq_true hL]
  · have h2 : 2 ≤ 2 ^ c.levels := Nat.le_self_pow hL 2
    rw [if_neg (by omega), if_neg (by rintro ⟨h₁, h₂⟩; rw [if_pos h₁] at h₂; cases h₂),
      decide_eq_false hL]

variable {c} {p l : Nat}

theorem outOfBounds_globals (hp : p < 2 ^ c.levels) (hl : l < c.levels) :
    (c.globals p).outOfBounds l = false := by
  simpa only [Globals.outOfBounds, globals, Int.toNat_natCast, decide_eq_false_iff_not, not_le]
    using arrayIdx_lt_nodes hp hl

theorem lockIdAt_globals (hp : p < 2 ^ c.levels) (hl : l < c.levels) :
    (c.globals p).lockIdAt l = ((c.slot (arrayIdx c.levels p l) : Nat) : Int) := by
  have hk := arrayIdx_lt_nodes hp hl
  have hk' : arrayIdx c.levels p l < c.slots.length := c.length_slots ▸ hk
  simp [Globals.lockIdAt, globals, slot, show 2 ^ c.levels - 1 > 0 by omega,
    List.getElem?_eq_getElem hk']

theorem roleAt_globals : (c.globals p).roleAt l = ((nodeRole c.levels p l : Nat) : Int) := rfl

@[simp] theorem lLevels_globals : (c.globals p).lLevels = c.levels := rfl

theorem globals_child : (c.globals 0).child p = c.globals p := rfl

end Config

section
variable (c : Config) {p l : Nat} {t : PTable}

theorem participantStep_idle :
    participantStep (c.globals p) t .idle =
      some (if c.levels = 0 then .critical else .acquiring (c.levels - 1), t) := by
  by_cases hL : c.levels = 0 <;> simp [participantStep, c.prologue_globals, hL]

theorem participantStep_critical :
    participantStep (c.globals p) t .critical =
      some (if c.levels = 0 then .idle else .releasing 0, t) := by
  by_cases hL : c.levels = 0 <;> simp [participantStep, c.prologue_globals, hL]

theorem participantStep_acquiring (hp : p < 2 ^ c.levels) (hl : l < c.levels) :
    participantStep (c.globals p) t (.acquiring l) =
      some (afterAcquire l
          (sysPetersonAcquire t (c.slot (arrayIdx c.levels p l)) (nodeRole c.levels p l)).1,
        (sysPetersonAcquire t (c.slot (arrayIdx c.levels p l)) (nodeRole c.levels p l)).2) := by
  simp only [participantStep, Config.outOfBounds_globals hp hl, Config.lockIdAt_globals hp hl,
    Config.roleAt_globals, Bool.false_eq_true, if_false]

theorem participantStep_waiting (hp : p < 2 ^ c.levels) (hl : l < c.levels) :
    participantStep (c.globals p) t (.waiting l) =
      some (afterAcquire l
        (petersonRecheck t (c.slot (arrayIdx c.levels p l)) (nodeRole c.levels p l)), t) := by
  simp only [participantStep, Globals.recheckAt, Config.lockIdAt_globals hp hl,
    Config.roleAt_globals, validLockArgs_coe]

theorem participantStep_releasing (hp : p < 2 ^ c.levels) (hl : l < c.levels) :
    participantStep (c.globals p) t (.releasing l) =
      some (if (sysPetersonRelease t (c.slot (arrayIdx c.levels p l)) (nodeRole c.levels p l)).1 < 0
          then .failed else if l + 1 < c.levels then .releasing (l + 1) else .idle,
        (sysPetersonRelease t (c.slot (arrayIdx c.levels p l)) (nodeRole c.levels p l)).2) := by
  simp only [participantStep, Config.outOfBounds_globals hp hl, Config.lockIdAt_globals hp hl,
    Config.roleAt_globals, Bool.false_eq_true, if_false]
  rfl

theorem participantStep_acquiring_of_active (hp : p < 2 ^ c.levels) (hl : l < c.levels)
    (ha : (t (c.slot (arrayIdx c.levels p l))).active = true) :
    participantStep (c.globals p) t (.acquiring l) =
      some (if waitCondition (announce (t (c.slot (arrayIdx c.levels p l))) (nodeRole c.levels p l))
            (nodeRole c.levels p l) then .waiting l else afterAcquire l .acquired,
        Function.update t (c.slot (arrayIdx c.levels p l))
          (announce (t (c.slot (arrayIdx c.levels p l))) (nodeRole c.levels p l))) := by
  rw [participantStep_acquiring c hp hl, sysPetersonAcquire_coe, if_neg (by simp [ha]),
    afterAcquire_waitTest (by simpa using ha)]

theorem participantStep_waiting_of_active (hp : p < 2 ^ c.levels) (hl : l < c.levels)
    (ha : (t (c.slot (arrayIdx c.levels p l))).active = true) :
    participantStep (c.globals p) t (.waiting l) =
      some (if waitCondition (t (c.slot (arrayIdx c.levels p l))) (nodeRole c.levels p l) then
          .waiting l else afterAcquire l .acquired, t) := by
  rw [participantStep_waiting c hp hl, petersonRecheck, afterAcquire_waitTest ha]

theorem participantStep_releasing_of_active (hp : p < 2 ^ c.levels) (hl : l < c.levels)
    (ha : (t (c.slot (arrayIdx c.levels p l))).active = true) :
    participantStep (c.globals p) t (.releasing l) =
      some (if l + 1 < c.levels then .releasing (l + 1) else .idle,
        Function.update t (c.slot (arrayIdx c.levels p l))
          (withdraw (t (c.slot (arrayIdx c.levels p l))) (nodeRole c.levels p l))) := by
  rw [participantStep_releasing c hp hl, sysPetersonRelease_coe]
  simp only [ha, Bool.true_eq_false, if_false, lt_irrefl]

end

/-- Participant 0 has passed the root; participant 1 has entered it and waits. -/
def duelWaiting : Tournament 2 :=
  ((Tournament.run duelGlobals ⟨duelTable, fun _ => .idle⟩ [.run 0, .run 0, .run 1, .run 1]).getD
    ⟨duelTable, fun _ => .idle⟩)

theorem duelWaiting_reachable : Tournament.Reachable duelGlobals duelTable duelWaiting :=
  Tournament.Reachable.init.run _ [.run 0, .run 0, .run 1, .run 1] rfl

/-- The two participants of `tournament 2` in turn. -/
def roundRobin : Nat → TournamentMove 2 := fun k => .run ⟨k % 2, Nat.mod_lt _ (by decide)⟩

theorem roundRobin_fair : Tournament.Fair roundRobin := by
  intro p k
  refine ⟨2 * k + p, by omega, ?_⟩
  simp only [roundRobin, TournamentMove.run.injEq, Fin.ext_iff]
  omega

/-- Participant 0 has gone through one cycle and exited; participant 1 has not started. -/
def duelDone : Tournament 2 :=
  ((Tournament.run duelGlobals ⟨duelTable, fun _ => .idle⟩
    [.run 0, .run 0, .run 0, .run 0, .exit 0]).getD ⟨duelTable, fun _ => .idle⟩)

theorem duelDone_reachable : Tournament.Reachable duelGlobals duelTable duelDone :=
  Tournament.Reachable.init.run _ [.run 0, .run 0, .run 0, .run 0, .exit 0] rfl

end PetersonTournament
