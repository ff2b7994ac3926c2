import PetersonTournament.TreeInvariant

/-!
# Bounded bypass at a node of the tree

While a participant waits at its node of level `l`, the `peterson_acquire` calls of the other
role on that node's lock return 0 at most once before the wait ends, whatever the interleaving.
This is the bounded bypass of one lock (`Pair.bounded_bypass`) inside the tree, where the
participant behind the other role may change after each release: whoever enters the node next
announces itself, and the announcement gives `turn` to the waiter.

`TreeInv.rival_step` says once what a step of another participant can do to the waiter's node;
`NodeBypass.step` and `NodeBypass.overtakes_le` follow from it.
-/

namespace PetersonTournament

/-- The lock id and role of the `peterson_acquire` that returns 0 in a participant's step from
`ph` to `ph'`, if the step is one. -/
def Phase.acquiredLock (g : Globals) (ph ph' : Phase) : Option (Int × Int) :=
  match ph with
  | .acquiring l | .waiting l =>
    if ph' = afterAcquire l .acquired then some (g.lockIdAt l, g.roleAt l) else none
  | _ => none

namespace Tournament
variable {n : Nat} (g : Globals)

/-- The move, from `s` to `s'`, is a `peterson_acquire` on `lockId` with role `role` that
returns 0. -/
def passes (s s' : Tournament n) (lockId role : Int) : TournamentMove n → Bool
  | .run q => (s.phase q).acquiredLock (g.child q) (s'.phase q) == some (lockId, role)
  | .exit _ => false

/-- The `peterson_acquire` calls with the other role that return 0 on the lock `p` waits for at
level `l`, counted along a schedule until `p`'s wait there ends. -/
def overtakes (p : Fin n) (l : Nat) : Tournament n → List (TournamentMove n) → Nat
  | _, [] => 0
  | s, m :: ms =>
    match s.step g m with
    | none => overtakes p l s ms
    | some s' =>
      if s'.phase p = .waiting l then
        (if s.passes g s' ((g.child p).lockIdAt l) (1 - (g.child p).roleAt l) m then 1 else 0) +
          overtakes p l s' ms
      else 0

end Tournament

theorem Phase.acquiredLock_of_waiting {g : Globals} (ph : Phase) (l : Nat) :
    ph.acquiredLock g (.waiting l) = none := by
  cases ph <;> simp [Phase.acquiredLock, eq_comm (a := Phase.waiting l), afterAcquire_eq_waiting]

theorem coe_eq_one_sub_coe (x y : Fin 2) :
    ((x : Nat) : Int) = 1 - ((y : Nat) : Int) ↔ x = 1 - y := by
  revert x y
  decide

section
variable {c : Config} {s : Tournament (2 ^ c.levels)} {p q : Fin (2 ^ c.levels)} {l : Nat}

theorem Config.lockIdAt_ne {l' : Nat} (hl' : l' < c.levels) (hl : l < c.levels)
    (h : arrayIdx c.levels q l' ≠ arrayIdx c.levels p l) :
    (c.globals q).lockIdAt l' ≠ (c.globals p).lockIdAt l := by
  rw [Config.lockIdAt_globals q.2 hl', Config.lockIdAt_globals p.2 hl]
  intro e
  exact h (c.slot_inj (arrayIdx_lt_nodes q.2 hl') (arrayIdx_lt_nodes p.2 hl) (Fin.ext (by omega)))

theorem TreeInv.rival_role (hi : TreeInv c s) (hl : l < c.levels) (hp : (s.phase p).holds (l + 1))
    (hq : (s.phase q).holds (l + 1)) (hqp : q ≠ p)
    (hk : arrayIdx c.levels q l = arrayIdx c.levels p l) :
    nodeRole c.levels q l = 1 - nodeRole c.levels p l :=
  eq_one_sub_of_ne fun hr => hqp (hi.unique hl (fun _ => hq) (fun _ => hp) hk hr)

theorem TreeInv.flag_of_waiting (hi : TreeInv c s) (hp : s.phase p = .waiting l)
    (hl : l < c.levels) :
    (s.ptable (c.slot (arrayIdx c.levels p l))).flag (nodeRole c.levels p l) = true :=
  ((hi.node _ (arrayIdx_lt_nodes p.2 hl)).flag_iff _).2
    ⟨p, l, hl, rfl, rfl, by simp [hp, Phase.registered]⟩

/-- What a step of a participant `q` other than the waiter `p` does at `p`'s node `k`: it leaves
the lock alone or releases the other role there, and it passes no wait at `k` and starts none;
or it enters `k` with the other role; or it passes the wait at `k`, which needs `turn` away from
`p`, and leaves the table alone. -/
theorem TreeInv.rival_step (hi : TreeInv c s) (hp : s.phase p = .waiting l) (hqp : q ≠ p)
    {ph : Phase} {t : PTable}
    (hst : participantStep (c.globals q) s.ptable (s.phase q) = some (ph, t)) :
    ((t (c.slot (arrayIdx c.levels p l)) = s.ptable (c.slot (arrayIdx c.levels p l)) ∨
          t (c.slot (arrayIdx c.levels p l)) =
            withdraw (s.ptable (c.slot (arrayIdx c.levels p l))) (1 - nodeRole c.levels p l)) ∧
        (s.phase q).acquiredLock (c.globals q) ph ≠
          some ((c.globals p).lockIdAt l, 1 - (c.globals p).roleAt l) ∧
        (ph = .waiting l → arrayIdx c.levels q l = arrayIdx c.levels p l →
          s.phase q = .waiting l)) ∨
      (t (c.slot (arrayIdx c.levels p l)) =
          announce (s.ptable (c.slot (arrayIdx c.levels p l))) (1 - nodeRole c.levels p l) ∧
        (s.phase q).acquiredLock (c.globals q) ph ≠
          some ((c.globals p).lockIdAt l, 1 - (c.globals p).roleAt l)) ∨
      (s.phase q = .waiting l ∧ arrayIdx c.levels q l = arrayIdx c.levels p l ∧
        (s.ptable (c.slot (arrayIdx c.levels p l))).turn ≠ nodeRole c.levels p l ∧
        ph ≠ .waiting l ∧
        (s.phase q).acquiredLock (c.globals q) ph =
          some ((c.globals p).lockIdAt l, 1 - (c.globals p).roleAt l) ∧ t = s.ptable) := by
  have hl : l < c.levels := by simpa [hp, Phase.inRange] using hi.inRange p
  have hpk := arrayIdx_lt_nodes p.2 hl
  have hflag := hi.flag_of_waiting hp hl
  have hph : (s.phase p).holds (l + 1) := by simp [hp, Phase.holds]
  have hr := hi.inRange q
  cases hs : s.phase q with
  | idle =>
    rw [hs, participantStep_idle, Option.some.injEq, Prod.mk.injEq] at hst
    obtain ⟨rfl, rfl⟩ := hst
    exact .inl ⟨.inl rfl, by simp [Phase.acquiredLock], by split <;> simp⟩
  | critical =>
    rw [hs, participantStep_critical, Option.some.injEq, Prod.mk.injEq] at hst
    obtain ⟨rfl, rfl⟩ := hst
    exact .inl ⟨.inl rfl, by simp [Phase.acquiredLock], by split <;> simp⟩
  | acquiring l' =>
    have hl' : l' < c.levels := by simpa [hs, Phase.inRange] using hr
    have hqk := arrayIdx_lt_nodes q.2 hl'
    rw [hs, participantStep_acquiring c q.2 hl', sysPetersonAcquire_coe,
      if_neg (by simp [hi.active _ hqk]), Option.some.injEq, Prod.mk.injEq] at hst
    obtain ⟨rfl, rfl⟩ := hst
    dsimp only
    by_cases e : arrayIdx c.levels q l' = arrayIdx c.levels p l
    · obtain rfl : l = l' := (arrayIdx_level_inj q.2 p.2 hl' hl e).symm
      have hrq := hi.rival_role hl hph (by simp [hs, Phase.holds]) hqp e
      have hw : waitCondition (announce (s.ptable (c.slot (arrayIdx c.levels p l)))
          (1 - nodeRole c.levels p l)) (1 - nodeRole c.levels p l) = true := by
        simp [waitCondition, Function.update_noteq (one_sub_ne _).symm, hflag]
      refine .inr (.inl ⟨by rw [e, Function.update_same, hrq], ?_⟩)
      rw [e, hrq, afterAcquire_waitTest (by simpa using hi.active _ hpk), hw, if_pos rfl,
        Phase.acquiredLock_of_waiting]
      nofun
    · have hslot : c.slot (arrayIdx c.levels p l) ≠ c.slot (arrayIdx c.levels q l') :=
        fun h => e (c.slot_inj hqk hpk h.symm)
      refine .inl ⟨.inl (by rw [Function.update_noteq hslot]),
        by simp [Phase.acquiredLock, Config.lockIdAt_ne hl' hl e], fun hw hk => ?_⟩
      obtain ⟨-, rfl⟩ := afterAcquire_eq_waiting.1 hw
      exact absurd hk e
  | waiting l' =>
    have hl' : l' < c.levels := by simpa [hs, Phase.inRange] using hr
    have hqk := arrayIdx_lt_nodes q.2 hl'
    rw [hs, participantStep_waiting_of_active c q.2 hl' (hi.active _ hqk), Option.some.injEq,
      Prod.mk.injEq] at hst
    obtain ⟨rfl, rfl⟩ := hst
    by_cases e : arrayIdx c.levels q l' = arrayIdx c.levels p l
    · obtain rfl : l = l' := (arrayIdx_level_inj q.2 p.2 hl' hl e).symm
      have hrq := hi.rival_role hl hph (by simp [hs, Phase.holds]) hqp e
      have hw : waitCondition (s.ptable (c.slot (arrayIdx c.levels p l)))
          (1 - nodeRole c.levels p l) =
            ((s.ptable (c.slot (arrayIdx c.levels p l))).turn == nodeRole c.levels p l) := by
        simp [waitCondition, hflag]
      rw [e, hrq, hw]
      by_cases ht : (s.ptable (c.slot (arrayIdx c.levels p l))).turn = nodeRole c.levels p l
      · rw [if_pos (by simpa using ht), Phase.acquiredLock_of_waiting]
        exact .inl ⟨.inl rfl, nofun, fun _ _ => rfl⟩
      · rw [if_neg (by simpa using ht)]
        refine .inr (.inr ⟨rfl, rfl, ht, fun h => ?_, ?_, rfl⟩)
        · simpa using (afterAcquire_eq_waiting.1 h).1
        · simp only [Phase.acquiredLock, if_pos, Config.lockIdAt_globals q.2 hl,
            Config.lockIdAt_globals p.2 hl, e, Config.roleAt_globals, hrq,
            (coe_eq_one_sub_coe _ _).2 rfl]
    · refine .inl ⟨.inl rfl, by simp [Phase.acquiredLock, Config.lockIdAt_ne hl' hl e],
        fun hw _ => ?_⟩
      split at hw
      · obtain rfl := Phase.waiting.inj hw
        rfl
      · simp [afterAcquire_eq_waiting] at hw
  | releasing l' =>
    have hl' : l' < c.levels := by simpa [hs, Phase.inRange] using hr
    have hqk := arrayIdx_lt_nodes q.2 hl'
    rw [hs, participantStep_releasing_of_active c q.2 hl' (hi.active _ hqk), Option.some.injEq,
      Prod.mk.injEq] at hst
    obtain ⟨rfl, rfl⟩ := hst
    refine .inl ⟨?_, by simp [Phase.acquiredLock], by split <;> simp⟩
    by_cases e : c.slot (arrayIdx c.levels p l) = c.slot (arrayIdx c.levels q l')
    · have hk := c.slot_inj hpk hqk e
      obtain rfl : l = l' := arrayIdx_level_inj p.2 q.2 hl hl' hk
      rw [e, Function.update_same,
        hi.rival_role hl hph (by simp [hs, Phase.holds]) hqp hk.symm]
      exact .inr rfl
    · exact .inl (Function.update_noteq e _ _)
  | failed => exact absurd hs (hi.notFailed q)
  | exited => simp [hs, participantStep] at hst

/-- `p` waits at its node `k` of level `l`, and the other role has passed `k` `cnt` times since;
it can pass once more only while `turn` is not `p`'s and another participant waits at `k`. -/
structure NodeBypass (c : Config) (p : Fin (2 ^ c.levels)) (l cnt : Nat)
    (s : Tournament (2 ^ c.levels)) : Prop where
  inv : TreeInv c s
  waiting : s.phase p = .waiting l
  count : cnt ≤ 1
  turn : cnt = 1 → (s.ptable (c.slot (arrayIdx c.levels p l))).turn = nodeRole c.levels p l ∨
    ∀ q, q ≠ p → s.phase q = .waiting l → arrayIdx c.levels q l ≠ arrayIdx c.levels p l

/-- One move while `p` still waits at level `l` afterwards adds to the count exactly when it is
the other role passing `p`'s node. -/
theorem NodeBypass.step {cnt : Nat} {s' : Tournament (2 ^ c.levels)}
    {m : TournamentMove (2 ^ c.levels)} (hb : NodeBypass c p l cnt s)
    (h : s.step (c.globals 0) m = some s') (hw : s'.phase p = .waiting l) :
    NodeBypass c p l (cnt + if s.passes (c.globals 0) s' (((c.globals 0).child p).lockIdAt l)
      (1 - ((c.globals 0).child p).roleAt l) m then 1 else 0) s' := by
  have hi' := hb.inv.step h
  cases m with
  | exit q =>
    simp only [Tournament.step] at h
    split_ifs at h with hq
    cases h
    dsimp only at hw hi' ⊢
    refine ⟨hi', hw, by simpa [Tournament.passes] using hb.count, fun h1 => ?_⟩
    rcases hb.turn (by simpa [Tournament.passes] using h1) with ht | hn
    · exact .inl ht
    · refine .inr fun q' hq' hwq' => ?_
      dsimp only at hwq'
      by_cases e : q' = q
      · subst e
        simp at hwq'
      · exact hn q' hq' (by rwa [Function.update_noteq e] at hwq')
  | run q =>
    obtain ⟨⟨ph, t⟩, hst, rfl⟩ := Option.map_eq_some'.1 h
    dsimp only at hw hi' ⊢
    simp only [Tournament.passes, Function.update_same, Config.globals_child] at hst ⊢
    have hl : l < c.levels := by simpa [hb.waiting, Phase.inRange] using hb.inv.inRange p
    by_cases hqp : q = p
    · subst hqp
      rw [Function.update_same] at hw
      subst hw
      rw [hb.waiting, participantStep_waiting c q.2 hl, Option.some.injEq, Prod.mk.injEq] at hst
      obtain ⟨-, rfl⟩ := hst
      rw [hb.waiting, Phase.acquiredLock_of_waiting, ← hb.waiting, Function.update_eq_self]
      simpa using hb
    · rcases hb.inv.rival_step hb.waiting hqp hst with ⟨ht, hno, hnew⟩ | ⟨ht, hno⟩ |
          ⟨hqw, hqk, ht, hph, hyes, -⟩
      · refine ⟨hi', hw, by simpa [hno] using hb.count, fun h1 => ?_⟩
        replace ht : (t (c.slot (arrayIdx c.levels p l))).turn =
            (s.ptable (c.slot (arrayIdx c.levels p l))).turn := by
          rcases ht with ht | ht <;> simp [ht]
        rcases hb.turn (by simpa [hno] using h1) with ht' | hn'
        · exact .inl (ht.trans ht')
        · refine .inr fun q' hq' hwq' hk => ?_
          dsimp only at hwq'
          by_cases e : q' = q
          · subst e
            rw [Function.update_same] at hwq'
            exact hn' q' hq' (hnew hwq' hk) hk
          · exact hn' q' hq' (by rwa [Function.update_noteq e] at hwq') hk
      · exact ⟨hi', hw, by simpa [hno] using hb.count, fun _ => .inl (by simp [ht])⟩
      · have hc : cnt = 0 := by
          by_contra h0
          rcases hb.turn (by have := hb.count; omega) with ht' | hn'
          · exact ht ht'
          · exact hn' q hqp hqw hqk
        subst hc
        refine ⟨hi', hw, by simp [hyes], fun _ => .inr fun q' hq' hwq' hk => ?_⟩
        dsimp only at hwq'
        by_cases e : q' = q
        · subst e
          exact hph (by rwa [Function.update_same] at hwq')
        · rw [Function.update_noteq e] at hwq'
          have hp₁ : (s.phase p).holds (l + 1) := by simp [hb.waiting, Phase.holds]
          have h₁ := hb.inv.rival_role hl hp₁ (by simp [hwq', Phase.holds]) hq' hk
          have h₂ := hb.inv.rival_role hl hp₁ (by simp [hqw, Phase.holds]) hqp hqk
          exact e (hb.inv.unique hl (fun _ => by simp [hwq', Phase.holds])
            (fun _ => by simp [hqw, Phase.holds]) (hk.trans hqk.symm) (h₁.trans h₂.symm))

theorem NodeBypass.overtakes_le :
    ∀ {cnt : Nat} {s : Tournament (2 ^ c.levels)} (ms : List (TournamentMove (2 ^ c.levels))),
      NodeBypass c p l cnt s → cnt + s.overtakes (c.globals 0) p l ms ≤ 1
  | _, _, [], hb => hb.count
  | cnt, s, m :: ms, hb => by
    cases hs : s.step (c.globals 0) m with
    | none => simpa only [Tournament.overtakes, hs] using NodeBypass.overtakes_le ms hb
    | some s' =>
      simp only [Tournament.overtakes, hs]
      split
      · next hw =>
        have := NodeBypass.overtakes_le ms (hb.step hs hw)
        omega
      · exact hb.count

end

/-- Bounded bypass at every node: from any reachable state in which participant `p` waits in
`sys_peterson_acquire` at level `l`, whatever the interleaving, the other role's
`peterson_acquire` calls on that lock return 0 at most once before `p`'s wait ends. -/
theorem tournament_bounded_bypass {n : Int} {g₀ g : Globals} {t₀ t : PTable}
    (hc : tournamentCreate n g₀ t₀ = (0, g, t)) {s : Tournament g.nProcesses}
    (hs : Tournament.Reachable g t s) {p : Fin g.nProcesses} {l : Nat}
    (hp : s.phase p = .waiting l) (ms : List (TournamentMove g.nProcesses)) :
    s.overtakes g p l ms ≤ 1 := by
  obtain ⟨c, rfl, ht⟩ := tournamentCreate_config hc
  simpa using NodeBypass.overtakes_le ms ⟨hs.treeInv ht, hp, Nat.zero_le 1, nofun⟩

theorem duel_bounded_bypass :
    duelWaiting.phase 1 = .waiting 0 ∧
      duelWaiting.overtakes duelGlobals 1 0 [.run 0, .run 0, .run 0, .run 0, .run 1] ≤ 1 :=
  ⟨rfl, tournament_bounded_bypass tournamentCreate_two duelWaiting_reachable (p := (1 : Fin 2))
    rfl _⟩

end PetersonTournament
