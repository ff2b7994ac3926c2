import PetersonTournament.Node
import PetersonTournament.Tournament

/-!
# The tree invariant: mutual exclusion and no deadlock

`TreeInv` is the one-lock invariant of `Node` at every node `k`, with `reg` the participants
whose flag is up at `k` and `held` those past its wait. Two participants counted at one node
with one role are then the same (`TreeInv.unique`, by induction from the leaves), which gives
mutual exclusion at the root; and the rival of a participant waiting at level `l` waits nearer
the root, which rules out a configuration where everyone waits.
-/

namespace PetersonTournament

/-- Participant `q`, in phase `ph`, is counted by `P` at node `k` with role `x`: `P` is
`Phase.registered` (its flag is up there) or `Phase.holds` (it is past the wait). -/
def Contributes (L : Nat) (P : Phase → Nat → Prop) (ph : Phase) (q : Fin (2 ^ L)) (k : Nat)
    (x : Fin 2) : Prop :=
  ∃ l < L, arrayIdx L q l = k ∧ nodeRole L q l = x ∧ P ph l

/-- The participants `P` counts at node `k` with role `x`. -/
def atNode (L : Nat) (P : Phase → Nat → Prop) (φ : Fin (2 ^ L) → Phase) (k : Nat) (x : Fin 2) :
    Prop :=
  ∃ q, Contributes L P (φ q) q k x

section
variable {L : Nat} {P : Phase → Nat → Prop} {φ : Fin (2 ^ L) → Phase} {p : Fin (2 ^ L)}
  {ph : Phase}

theorem atNode_update {k : Nat} (h : ∀ l < L, arrayIdx L p l = k → (P ph l ↔ P (φ p) l))
    (x : Fin 2) : atNode L P (Function.update φ p ph) k x ↔ atNode L P φ k x := by
  constructor
  · rintro ⟨q, l, hl, hk, hx, hP⟩
    by_cases hq : q = p
    · subst hq
      rw [Function.update_same] at hP
      exact ⟨q, l, hl, hk, hx, (h l hl hk).1 hP⟩
    · exact ⟨q, l, hl, hk, hx, by rwa [Function.update_noteq hq] at hP⟩
  · rintro ⟨q, l, hl, hk, hx, hP⟩
    by_cases hq : q = p
    · subst hq
      exact ⟨q, l, hl, hk, hx, by rw [Function.update_same]; exact (h l hl hk).2 hP⟩
    · exact ⟨q, l, hl, hk, hx, by rwa [Function.update_noteq hq]⟩

theorem atNode_update_node (φ : Fin (2 ^ L) → Phase) (p : Fin (2 ^ L)) (ph : Phase) {l : Nat}
    (hl : l < L) (x : Fin 2) :
    atNode L P (Function.update φ p ph) (arrayIdx L p l) x ↔
      (∃ q, q ≠ p ∧ Contributes L P (φ q) q (arrayIdx L p l) x) ∨
        (x = nodeRole L p l ∧ P ph l) := by
  constructor
  · rintro ⟨q, l', hl', hk, hx, hP⟩
    by_cases hq : q = p
    · subst hq
      obtain rfl := arrayIdx_level_inj q.2 q.2 hl' hl hk
      rw [Function.update_same] at hP
      exact .inr ⟨hx.symm, hP⟩
    · exact .inl ⟨q, hq, l', hl', hk, hx, by rwa [Function.update_noteq hq] at hP⟩
  · rintro (⟨q, hq, l', hl', hk, hx, hP⟩ | ⟨hx, hP⟩)
    · exact ⟨q, l', hl', hk, hx, by rwa [Function.update_noteq hq]⟩
    · exact ⟨p, l, hl, rfl, hx.symm, by rwa [Function.update_same]⟩

theorem atNode_node {l : Nat} (hl : l < L) (x : Fin 2) :
    atNode L P φ (arrayIdx L p l) x ↔
      (∃ q, q ≠ p ∧ Contributes L P (φ q) q (arrayIdx L p l) x) ∨
        (x = nodeRole L p l ∧ P (φ p) l) := by
  simpa only [Function.update_eq_self] using atNode_update_node (P := P) φ p (φ p) hl x

end

/-- The invariant of a tournament over the tree `c`. -/
structure TreeInv (c : Config) (s : Tournament (2 ^ c.levels)) : Prop where
  active : ∀ k < 2 ^ c.levels - 1, (s.ptable (c.slot k)).active = true
  node : ∀ k < 2 ^ c.levels - 1, NodeInv (s.ptable (c.slot k))
    (atNode c.levels Phase.registered s.phase k) (atNode c.levels Phase.holds s.phase k)
  inRange : ∀ q, (s.phase q).inRange c.levels
  notFailed : ∀ q, s.phase q ≠ .failed

section
variable {c : Config} {s : Tournament (2 ^ c.levels)}

theorem treeInv_init {t₀ : PTable} (ht : ∀ i ∈ c.slots, t₀ i = PetersonLock.fresh) :
    TreeInv c ⟨t₀, fun _ => .idle⟩ where
  active k hk := by simp [ht _ (c.slot_mem hk), PetersonLock.fresh]
  node k hk := nodeInv_idle (fun x => by simp [ht _ (c.slot_mem hk), PetersonLock.fresh])
    (fun x ⟨_, _, _, _, _, h⟩ => h) (fun x ⟨_, _, _, _, _, h⟩ => h)
  inRange _ := trivial
  notFailed _ := nofun

/-- Two participants counted at one node with one role, each past the node below it on its path,
are the same: at the leaves the node and the role name the participant; above, they name the
child node, where the lock's mutual exclusion leaves room for one role only. -/
theorem TreeInv.unique (hi : TreeInv c s) {l : Nat} (hl : l < c.levels) {p q : Fin (2 ^ c.levels)}
    (hp : l + 1 < c.levels → (s.phase p).holds (l + 1))
    (hq : l + 1 < c.levels → (s.phase q).holds (l + 1))
    (hk : arrayIdx c.levels p l = arrayIdx c.levels q l)
    (hr : nodeRole c.levels p l = nodeRole c.levels q l) : p = q := by
  by_cases hl₁ : l + 1 < c.levels
  · have hk₁ := arrayIdx_child hl₁ hk (congrArg Fin.val hr)
    by_cases hr₁ : nodeRole c.levels p (l + 1) = nodeRole c.levels q (l + 1)
    · exact hi.unique hl₁ (fun _ => (hp hl₁).mono (by omega)) (fun _ => (hq hl₁).mono (by omega))
        hk₁ hr₁
    · exact ((hi.node _ (arrayIdx_lt_nodes p.2 hl₁)).not_held_both
        ⟨p, l + 1, hl₁, rfl, rfl, hp hl₁⟩
        ⟨q, l + 1, hl₁, hk₁.symm, eq_one_sub_of_ne (Ne.symm hr₁), hq hl₁⟩).elim
  · obtain rfl : l = c.levels - 1 := by omega
    exact Fin.ext (eq_of_leaf (by omega) hk (congrArg Fin.val hr))
termination_by c.levels - l

theorem TreeInv.no_rival (hi : TreeInv c s) {p : Fin (2 ^ c.levels)} {l : Nat} (hl : l < c.levels)
    (hp : l + 1 < c.levels → (s.phase p).holds (l + 1)) :
    ¬ ∃ q, q ≠ p ∧ Contributes c.levels Phase.registered (s.phase q) q (arrayIdx c.levels p l)
      (nodeRole c.levels p l) := by
  rintro ⟨q, hq, l', hl', hk, hx, hreg⟩
  obtain rfl := arrayIdx_level_inj q.2 p.2 hl' hl hk
  exact hq (hi.unique hl (fun _ => hreg.holds_succ) hp hk hx)

variable {p : Fin (2 ^ c.levels)} {ph : Phase}

theorem TreeInv.update_phase (hi : TreeInv c s) {ph₀ : Phase} (hp : s.phase p = ph₀)
    (hreg : ∀ l < c.levels, (ph.registered l ↔ ph₀.registered l))
    (hheld : ∀ l < c.levels, (ph.holds l ↔ ph₀.holds l))
    (hr : ph.inRange c.levels) (hf : ph ≠ .failed) :
    TreeInv c ⟨s.ptable, Function.update s.phase p ph⟩ where
  active := hi.active
  node k hk := (hi.node k hk).of_iff (atNode_update fun l hl _ => hp ▸ hreg l hl)
    (atNode_update fun l hl _ => hp ▸ hheld l hl)
  inRange := (Function.forall_update_iff s.phase fun _ (ph : Phase) => ph.inRange c.levels).2
    ⟨hr, fun q _ => hi.inRange q⟩
  notFailed := (Function.forall_update_iff s.phase fun _ (ph : Phase) => ph ≠ .failed).2
    ⟨hf, fun q _ => hi.notFailed q⟩

theorem TreeInv.update_node (hi : TreeInv c s) {l : Nat} (hl : l < c.levels) (pl : PetersonLock)
    (hreg : ∀ l' < c.levels, l' ≠ l → (ph.registered l' ↔ (s.phase p).registered l'))
    (hheld : ∀ l' < c.levels, l' ≠ l → (ph.holds l' ↔ (s.phase p).holds l'))
    (hr : ph.inRange c.levels) (hf : ph ≠ .failed) (ha : pl.active = true)
    (hn : NodeInv pl
      (atNode c.levels Phase.registered (Function.update s.phase p ph) (arrayIdx c.levels p l))
      (atNode c.levels Phase.holds (Function.update s.phase p ph) (arrayIdx c.levels p l))) :
    TreeInv c ⟨Function.update s.ptable (c.slot (arrayIdx c.levels p l)) pl,
      Function.update s.phase p ph⟩ := by
  have hpk := arrayIdx_lt_nodes p.2 hl
  have hslot : ∀ k < 2 ^ c.levels - 1, k ≠ arrayIdx c.levels p l →
      c.slot k ≠ c.slot (arrayIdx c.levels p l) := fun k hk hne e => hne (c.slot_inj hk hpk e)
  have hlev : ∀ k, k ≠ arrayIdx c.levels p l → ∀ l' < c.levels, arrayIdx c.levels p l' = k →
      l' ≠ l := by
    rintro k hne l' - rfl rfl
    exact hne rfl
  refine ⟨fun k hk => ?_, fun k hk => ?_, ?_, ?_⟩ <;> dsimp only
  · by_cases hkk : k = arrayIdx c.levels p l
    · subst hkk
      rwa [Function.update_same]
    · rw [Function.update_noteq (hslot k hk hkk)]
      exact hi.active k hk
  · by_cases hkk : k = arrayIdx c.levels p l
    · subst hkk
      rwa [Function.update_same]
    · rw [Function.update_noteq (hslot k hk hkk)]
      exact (hi.node k hk).of_iff
        (atNode_update fun l' hl' hk' => hreg l' hl' (hlev k hkk l' hl' hk'))
        (atNode_update fun l' hl' hk' => hheld l' hl' (hlev k hkk l' hl' hk'))
  · exact (Function.forall_update_iff s.phase fun _ (ph : Phase) => ph.inRange c.levels).2
      ⟨hr, fun q _ => hi.inRange q⟩
  · exact (Function.forall_update_iff s.phase fun _ (ph : Phase) => ph ≠ .failed).2
      ⟨hf, fun q _ => hi.notFailed q⟩

end

section
variable {c : Config} {s : Tournament (2 ^ c.levels)} {p : Fin (2 ^ c.levels)}

theorem afterAcquire_acquired_registered {l l' : Nat} :
    (afterAcquire l .acquired).registered l' ↔ l ≤ l' := by
  by_cases h0 : l = 0 <;> simp [afterAcquire, h0, Phase.registered]
  omega

theorem afterAcquire_acquired_holds {l l' : Nat} :
    (afterAcquire l .acquired).holds l' ↔ l ≤ l' := by
  by_cases h0 : l = 0 <;> simp [afterAcquire, h0, Phase.holds]
  omega

theorem afterAcquire_acquired_inRange {l : Nat} (hl : l < c.levels) :
    (afterAcquire l .acquired).inRange c.levels := by
  by_cases h0 : l = 0 <;> simp [afterAcquire, h0, Phase.inRange]
  omega

theorem afterAcquire_acquired_ne_failed {l : Nat} : afterAcquire l .acquired ≠ .failed := by
  by_cases h0 : l = 0 <;> simp [afterAcquire, h0]

theorem Contributes.mono {L : Nat} {P Q : Phase → Nat → Prop} {ph : Phase} {q : Fin (2 ^ L)}
    {k : Nat} {x : Fin 2} (h : Contributes L P ph q k x) (hPQ : ∀ l, P ph l → Q ph l) :
    Contributes L Q ph q k x :=
  let ⟨l, hl, hk, hx, hP⟩ := h
  ⟨l, hl, hk, hx, hPQ l hP⟩

theorem TreeInv.enter (hi : TreeInv c s) {l : Nat} (hpl : s.phase p = .acquiring l)
    (hl : l < c.levels) :
    TreeInv c ⟨Function.update s.ptable (c.slot (arrayIdx c.levels p l))
        (announce (s.ptable (c.slot (arrayIdx c.levels p l))) (nodeRole c.levels p l)),
      Function.update s.phase p (if waitCondition
          (announce (s.ptable (c.slot (arrayIdx c.levels p l))) (nodeRole c.levels p l))
          (nodeRole c.levels p l) then .waiting l else afterAcquire l .acquired)⟩ := by
  have hk := arrayIdx_lt_nodes p.2 hl
  have ha := hi.active _ hk
  set pl := s.ptable (c.slot (arrayIdx c.levels p l))
  set r := nodeRole c.levels p l
  generalize hw : waitCondition (announce pl r) r = w
  have hreg : ∀ l',
      (if w then .waiting l else afterAcquire l .acquired).registered l' ↔ l ≤ l' := by
    intro l'
    split
    · rfl
    · exact afterAcquire_acquired_registered
  have hheld : ∀ l', (if w then .waiting l else afterAcquire l .acquired).holds l' ↔
      l < l' ∨ (l' = l ∧ w = false) := by
    intro l'
    split
    · simp_all [Phase.holds]
    · simp_all [afterAcquire_acquired_holds]
      omega
  have hown : ¬ (s.phase p).registered l := by simp [hpl, Phase.registered]
  have hown' : ¬ (s.phase p).holds l := fun h => hown h.registered
  have hriv := hi.no_rival hl (p := p) fun _ => by simp [hpl, Phase.holds]
  refine hi.update_node hl _ (fun l' _ hne => ?_) (fun l' _ hne => ?_) ?_ ?_ (by simpa using ha) ?_
  · rw [hreg, hpl]
    simp only [Phase.registered]
    omega
  · rw [hheld, hpl]
    simp [Phase.holds, hne]
  · split
    · exact hl
    · exact afterAcquire_acquired_inRange hl
  · split
    · nofun
    · exact afterAcquire_acquired_ne_failed
  · refine (hi.node _ hk).announce ?_ (fun x => ?_) (fun x => ?_)
    · rw [atNode_node hl]
      rintro (h | ⟨-, h⟩)
      · exact hriv h
      · exact hown h
    · rw [atNode_update_node _ _ _ hl, atNode_node hl]
      simp only [hreg, le_refl, and_true, hown, and_false, or_false]
    · rw [atNode_update_node _ _ _ hl, atNode_node hl, hw]
      simp only [hheld, lt_irrefl, true_and, false_or, hown', and_false, or_false]

theorem TreeInv.pass (hi : TreeInv c s) {l : Nat} (hpl : s.phase p = .waiting l) (hl : l < c.levels)
    (hw : waitCondition (s.ptable (c.slot (arrayIdx c.levels p l))) (nodeRole c.levels p l) =
      false) :
    TreeInv c ⟨s.ptable, Function.update s.phase p (afterAcquire l .acquired)⟩ := by
  have hk := arrayIdx_lt_nodes p.2 hl
  have hreg : ∀ l', (afterAcquire l .acquired).registered l' ↔ (s.phase p).registered l' := by
    intro l'
    rw [hpl, afterAcquire_acquired_registered]
    rfl
  have hown : ¬ (s.phase p).holds l := by simp [hpl, Phase.holds]
  rw [← Function.update_eq_self (c.slot (arrayIdx c.levels p l)) s.ptable]
  refine hi.update_node hl _ (fun l' _ _ => hreg l') (fun l' _ hne => ?_)
    (afterAcquire_acquired_inRange hl) afterAcquire_acquired_ne_failed (hi.active _ hk) ?_
  · rw [hpl, afterAcquire_acquired_holds]
    simp only [Phase.holds]
    omega
  · refine (hi.node _ hk).pass hw ⟨p, l, hl, rfl, rfl, by simp [hpl, Phase.registered]⟩
      (atNode_update fun l' _ _ => hreg l') (fun x => ?_)
    rw [atNode_update_node _ _ _ hl, atNode_node hl]
    simp only [afterAcquire_acquired_holds, le_refl, and_true, hown, and_false, or_false]

theorem TreeInv.release (hi : TreeInv c s) {l : Nat} (hpl : s.phase p = .releasing l)
    (hl : l < c.levels) :
    TreeInv c ⟨Function.update s.ptable (c.slot (arrayIdx c.levels p l))
        (withdraw (s.ptable (c.slot (arrayIdx c.levels p l))) (nodeRole c.levels p l)),
      Function.update s.phase p (if l + 1 < c.levels then .releasing (l + 1) else .idle)⟩ := by
  have hk := arrayIdx_lt_nodes p.2 hl
  have hriv := hi.no_rival hl (p := p) fun _ => by simp [hpl, Phase.holds]
  have hreg : ∀ l', (if l + 1 < c.levels then Phase.releasing (l + 1) else .idle).registered l' →
      l + 1 ≤ l' := by
    intro l'
    split <;> simp [Phase.registered]
  have hheld : ∀ l', (if l + 1 < c.levels then Phase.releasing (l + 1) else .idle).holds l' ↔
      (if l + 1 < c.levels then Phase.releasing (l + 1) else .idle).registered l' := by
    intro l'
    split <;> rfl
  have hnew : ¬ (if l + 1 < c.levels then Phase.releasing (l + 1) else .idle).registered l :=
    fun h => by have := hreg l h; omega
  refine hi.update_node hl _ (fun l' hl' hne => ?_) (fun l' hl' hne => ?_) ?_ ?_
    (by simpa using hi.active _ hk) ?_
  · rw [hpl]
    split <;> simp [Phase.registered] <;> omega
  · rw [hpl, hheld]
    split <;> simp [Phase.registered, Phase.holds] <;> omega
  · split <;> simp [Phase.inRange]
    omega
  · split <;> simp
  · refine (hi.node _ hk).withdraw (fun x => ?_) (fun x => ?_)
    · rw [atNode_update_node _ _ _ hl, atNode_node hl]
      by_cases hx : x = nodeRole c.levels p l
      · subst hx
        simpa [hnew] using hriv
      · simp [hx]
    · rw [atNode_update_node _ _ _ hl, atNode_node hl, hheld]
      by_cases hx : x = nodeRole c.levels p l
      · subst hx
        simpa [hnew] using fun q hq hc => hriv ⟨q, hq, hc.mono fun _ h => h.registered⟩
      · simp [hx]

theorem TreeInv.run (hi : TreeInv c s) {ph : Phase} {t : PTable}
    (h : participantStep (c.globals p) s.ptable (s.phase p) = some (ph, t)) :
    TreeInv c ⟨t, Function.update s.phase p ph⟩ := by
  have hr := hi.inRange p
  cases hs : s.phase p with
  | idle =>
    rw [hs, participantStep_idle, Option.some.injEq, Prod.mk.injEq] at h
    obtain ⟨rfl, rfl⟩ := h
    refine hi.update_phase hs (fun l hl => ?_) (fun l hl => ?_) ?_ ?_ <;> split <;>
      simp [Phase.registered, Phase.holds, Phase.inRange] <;> omega
  | critical =>
    rw [hs, participantStep_critical, Option.some.injEq, Prod.mk.injEq] at h
    obtain ⟨rfl, rfl⟩ := h
    refine hi.update_phase hs (fun l hl => ?_) (fun l hl => ?_) ?_ ?_ <;> split <;>
      simp [Phase.registered, Phase.holds, Phase.inRange] <;> omega
  | acquiring l =>
    have hl : l < c.levels := by simpa [hs, Phase.inRange] using hr
    have ha := hi.active _ (arrayIdx_lt_nodes p.2 hl)
    rw [hs, participantStep_acquiring_of_active c p.2 hl ha, Option.some.injEq,
      Prod.mk.injEq] at h
    obtain ⟨rfl, rfl⟩ := h
    exact hi.enter hs hl
  | waiting l =>
    have hl : l < c.levels := by simpa [hs, Phase.inRange] using hr
    have ha := hi.active _ (arrayIdx_lt_nodes p.2 hl)
    rw [hs, participantStep_waiting_of_active c p.2 hl ha, Option.some.injEq,
      Prod.mk.injEq] at h
    obtain ⟨rfl, rfl⟩ := h
    split
    · rw [← hs, Function.update_eq_self]
      exact hi
    next hw => exact hi.pass hs hl (by simpa using hw)
  | releasing l =>
    have hl : l < c.levels := by simpa [hs, Phase.inRange] using hr
    have ha := hi.active _ (arrayIdx_lt_nodes p.2 hl)
    rw [hs, participantStep_releasing_of_active c p.2 hl ha, Option.some.injEq,
      Prod.mk.injEq] at h
    obtain ⟨rfl, rfl⟩ := h
    exact hi.release hs hl
  | failed => exact absurd hs (hi.notFailed p)
  | exited => simp [hs, participantStep] at h

theorem TreeInv.exit (hi : TreeInv c s) (hs : s.phase p = .idle) :
    TreeInv c ⟨s.ptable, Function.update s.phase p .exited⟩ :=
  hi.update_phase hs (fun _ _ => Iff.rfl) (fun _ _ => Iff.rfl) trivial nofun

end

theorem TreeInv.step {c : Config} {s s' : Tournament (2 ^ c.levels)}
    {m : TournamentMove (2 ^ c.levels)} (hi : TreeInv c s) (h : s.step (c.globals 0) m = some s') :
    TreeInv c s' := by
  cases m with
  | run p =>
    obtain ⟨⟨ph, t⟩, hst, rfl⟩ := Option.map_eq_some'.1 h
    exact hi.run hst
  | exit p =>
    simp only [Tournament.step] at h
    split_ifs at h with hp
    cases h
    exact hi.exit hp

theorem Tournament.Reachable.treeInv {c : Config} {t₀ : PTable}
    (ht : ∀ i ∈ c.slots, t₀ i = PetersonLock.fresh) {s : Tournament (2 ^ c.levels)}
    (hs : Tournament.Reachable (c.globals 0) t₀ s) : TreeInv c s := by
  induction hs with
  | init => exact treeInv_init ht
  | step _ _ h ih => exact ih.step h

section
variable {c : Config} {s : Tournament (2 ^ c.levels)}

/-- Two participants past the root's wait, in their critical sections or about to release the
root, are the same: with different roles the root's lock excludes them, with the same role
`TreeInv.unique` makes them one. -/
theorem TreeInv.root_unique (hi : TreeInv c s) {p q : Fin (2 ^ c.levels)}
    (hp : (s.phase p).holds 0) (hq : (s.phase q).holds 0) : p = q := by
  rcases Nat.eq_zero_or_pos c.levels with hL | hL
  · have h1 : 2 ^ c.levels = 1 := by rw [hL]; rfl
    exact Fin.ext (by have := p.2; have := q.2; omega)
  have hroot : 0 < 2 ^ c.levels - 1 := by
    have := Nat.le_self_pow (Nat.pos_iff_ne_zero.1 hL) 2
    omega
  by_cases hr : nodeRole c.levels p 0 = nodeRole c.levels q 0
  · exact hi.unique hL (fun _ => hp.mono (Nat.zero_le 1)) (fun _ => hq.mono (Nat.zero_le 1))
      (by rw [arrayIdx_zero p.2, arrayIdx_zero q.2]) hr
  · exact ((hi.node 0 hroot).not_held_both ⟨p, 0, hL, arrayIdx_zero p.2, rfl, hp⟩
      ⟨q, 0, hL, arrayIdx_zero q.2, eq_one_sub_of_ne (Ne.symm hr), hq⟩).elim

theorem TreeInv.mutex (hi : TreeInv c s) {p q : Fin (2 ^ c.levels)} (hp : s.phase p = .critical)
    (hq : s.phase q = .critical) : p = q :=
  hi.root_unique (by simp [hp, Phase.holds]) (by simp [hq, Phase.holds])

/-- If every running participant waits on a true wait condition, none runs: the flag that keeps
a waiter at level `l` belongs to a rival registered at that node, which runs and so waits; at
the same node it would see `turn` on its own side, so it waits at a level nearer the root. -/
theorem TreeInv.no_deadlock (hi : TreeInv c s)
    (hw : ∀ q, (s.phase q).running → ∃ l, s.phase q = .waiting l ∧
      waitCondition (s.ptable (c.slot (arrayIdx c.levels q l))) (nodeRole c.levels q l) = true) :
    ∀ q, ¬ (s.phase q).running := by
  have key : ∀ l q, s.phase q ≠ .waiting l := by
    intro l
    induction l using Nat.strong_induction_on with
    | _ l ih =>
      intro q hq
      obtain ⟨l', hq', hwq⟩ := hw q (by simp [hq, Phase.running])
      obtain rfl : l = l' := Phase.waiting.inj (hq.symm.trans hq')
      have hl : l < c.levels := by simpa [hq, Phase.inRange] using hi.inRange q
      simp only [waitCondition, Bool.and_eq_true, beq_iff_eq] at hwq
      obtain ⟨q', l'', hl'', hk, hr, hreg⟩ :=
        ((hi.node _ (arrayIdx_lt_nodes q.2 hl)).flag_iff _).1 hwq.1
      have e := arrayIdx_level_inj q'.2 q.2 hl'' hl hk
      subst l''
      obtain ⟨m, hm, hwm⟩ := hw q' hreg.running
      rw [hm] at hreg
      rcases Nat.lt_or_ge m l with hlt | hge
      · exact ih m hlt q' hm
      · obtain rfl : m = l := le_antisymm hreg hge
        rw [hk, hr] at hwm
        simp only [waitCondition, one_sub_one_sub, Bool.and_eq_true, beq_iff_eq] at hwm
        exact ne_one_sub _ (hwm.2.symm.trans hwq.2)
  intro q hq
  obtain ⟨l, hl, -⟩ := hw q hq
  exact key l q hl

theorem TreeInv.moves (hi : TreeInv c s) {p : Fin (2 ^ c.levels)} (hp : (s.phase p).running) :
    (∃ l, s.phase p = .waiting l ∧
      waitCondition (s.ptable (c.slot (arrayIdx c.levels p l))) (nodeRole c.levels p l) = true) ∨
    ∃ ph t, participantStep (c.globals p) s.ptable (s.phase p) = some (ph, t) ∧ ph ≠ s.phase p := by
  have hr := hi.inRange p
  cases hs : s.phase p with
  | idle => exact .inr ⟨_, _, participantStep_idle c, by split <;> simp⟩
  | critical => exact .inr ⟨_, _, participantStep_critical c, by split <;> simp⟩
  | acquiring l =>
    have hl : l < c.levels := by simpa [hs, Phase.inRange] using hr
    have ha := hi.active _ (arrayIdx_lt_nodes p.2 hl)
    refine .inr ⟨_, _, participantStep_acquiring_of_active c p.2 hl ha, ?_⟩
    split
    · simp
    · by_cases h0 : l = 0 <;> simp [afterAcquire, h0]
      omega
  | waiting l =>
    have hl : l < c.levels := by simpa [hs, Phase.inRange] using hr
    have ha := hi.active _ (arrayIdx_lt_nodes p.2 hl)
    by_cases hw : waitCondition (s.ptable (c.slot (arrayIdx c.levels p l))) (nodeRole c.levels p l)
    · exact .inl ⟨l, rfl, hw⟩
    · refine .inr ⟨_, _, participantStep_waiting_of_active c p.2 hl ha, ?_⟩
      rw [if_neg hw]
      by_cases h0 : l = 0 <;> simp [afterAcquire, h0]
  | releasing l =>
    have hl : l < c.levels := by simpa [hs, Phase.inRange] using hr
    have ha := hi.active _ (arrayIdx_lt_nodes p.2 hl)
    refine .inr ⟨_, _, participantStep_releasing_of_active c p.2 hl ha, ?_⟩
    split <;> simp
  | failed | exited => simp [hs, Phase.running] at hp

end

/-- Whatever the interleaving, two participants of a tournament that `tournament_create` set up
are never both between a `tournament_acquire` that returned 0 and their `tournament_release`. -/
theorem tournament_mutual_exclusion {n : Int} {g₀ g : Globals} {t₀ t : PTable}
    (hc : tournamentCreate n g₀ t₀ = (0, g, t)) {s : Tournament g.nProcesses}
    (hs : Tournament.Reachable g t s) (p q : Fin g.nProcesses) (hp : s.phase p = .critical)
    (hq : s.phase q = .critical) : p = q := by
  obtain ⟨c, rfl, ht⟩ := tournamentCreate_config hc
  exact (hs.treeInv ht).mutex hp hq

theorem duel_mutual_exclusion :
    duelWaiting.phase 0 = .critical ∧ ∀ q, duelWaiting.phase q = .critical → q = 0 :=
  ⟨rfl, fun q hq =>
    tournament_mutual_exclusion tournamentCreate_two duelWaiting_reachable q (0 : Fin 2) hq rfl⟩

theorem tournament_deadlock_free {n : Int} {g₀ g : Globals} {t₀ t : PTable}
    (hc : tournamentCreate n g₀ t₀ = (0, g, t)) {s : Tournament g.nProcesses}
    (hs : Tournament.Reachable g t s) :
    ¬ ((∃ p, (s.phase p).running) ∧ ∀ p, (s.phase p).running →
      ∃ l i r, s.phase p = .waiting l ∧
        validLockArgs ((g.child p).lockIdAt l) ((g.child p).roleAt l) = some (i, r) ∧
        waitCondition (s.ptable i) r = true) := by
  obtain ⟨c, rfl, ht⟩ := tournamentCreate_config hc
  have hi := hs.treeInv ht
  rintro ⟨⟨p, hp⟩, hall⟩
  refine hi.no_deadlock (fun q hq => ?_) p hp
  obtain ⟨l, i, r, hql, hargs, hw⟩ := hall q hq
  have hl : l < c.levels := by simpa [hql, Phase.inRange] using hi.inRange q
  rw [Config.globals_child, Config.lockIdAt_globals q.2 hl, Config.roleAt_globals,
    validLockArgs_coe, Option.some.injEq, Prod.mk.injEq] at hargs
  obtain ⟨rfl, rfl⟩ := hargs
  exact ⟨l, hql, hw⟩

theorem duel_deadlock_free :
    ¬ ((∃ p, (duelWaiting.phase p).running) ∧ ∀ p, (duelWaiting.phase p).running →
      ∃ l i r, duelWaiting.phase p = .waiting l ∧
        validLockArgs ((duelGlobals.child p).lockIdAt l) ((duelGlobals.child p).roleAt l) =
          some (i, r) ∧
        waitCondition (duelWaiting.ptable i) r = true) :=
  tournament_deadlock_free tournamentCreate_two duelWaiting_reachable

theorem tournament_progress {n : Int} {g₀ g : Globals} {t₀ t : PTable}
    (hc : tournamentCreate n g₀ t₀ = (0, g, t)) {s : Tournament g.nProcesses}
    (hs : Tournament.Reachable g t s) (h : ∃ p, (s.phase p).running) :
    ∃ p s', s.step g (.run p) = some s' ∧ s'.phase p ≠ s.phase p := by
  obtain ⟨c, rfl, ht⟩ := tournamentCreate_config hc
  have hi := hs.treeInv ht
  by_contra hno
  obtain ⟨p, hp⟩ := h
  refine hi.no_deadlock (fun q hq => (hi.moves hq).resolve_right ?_) p hp
  rintro ⟨ph, t', hst, hne⟩
  refine hno ⟨q, ⟨t', Function.update s.phase q ph⟩, ?_, by simpa using hne⟩
  rw [Tournament.step, Config.globals_child, hst]
  rfl

theorem duel_progress :
    ∃ p s', duelWaiting.step duelGlobals (.run p) = some s' ∧ s'.phase p ≠ duelWaiting.phase p :=
  tournament_progress tournamentCreate_two duelWaiting_reachable
    ⟨(0 : Fin 2), show Phase.critical ≠ .failed ∧ Phase.critical ≠ .exited from ⟨nofun, nofun⟩⟩

theorem tournament_calls_succeed {n : Int} {g₀ g : Globals} {t₀ t : PTable}
    (hc : tournamentCreate n g₀ t₀ = (0, g, t)) {s : Tournament g.nProcesses}
    (hs : Tournament.Reachable g t s) (p : Fin g.nProcesses) : s.phase p ≠ .failed := by
  obtain ⟨c, rfl, ht⟩ := tournamentCreate_config hc
  exact (hs.treeInv ht).notFailed p

theorem duel_calls_succeed : duelWaiting.phase 0 ≠ .failed ∧ duelWaiting.phase 1 ≠ .failed :=
  ⟨tournament_calls_succeed tournamentCreate_two duelWaiting_reachable (0 : Fin 2),
    tournament_calls_succeed tournamentCreate_two duelWaiting_reachable (1 : Fin 2)⟩

/-- When no participant is inside `tournament_acquire`, its critical section or
`tournament_release`, every lock of `peterson_lock_ids_array` is active with both flags down:
the tournament leaves no flag raised behind it. -/
theorem tournament_quiescent_locks_clean {n : Int} {g₀ g : Globals} {t₀ t : PTable}
    (hc : tournamentCreate n g₀ t₀ = (0, g, t)) {s : Tournament g.nProcesses}
    (hs : Tournament.Reachable g t s) (hq : ∀ p, s.phase p = .idle ∨ s.phase p = .exited) :
    ∀ lockId ∈ g.petersonLockIdsArray.getD [], ∃ i, validLockId lockId = some i ∧
      (s.ptable i).active = true ∧ ∀ r, (s.ptable i).flag r = false := by
  obtain ⟨c, rfl, ht⟩ := tournamentCreate_config hc
  have hi := hs.treeInv ht
  intro lockId hmem
  obtain ⟨k, hk, rfl⟩ := c.mem_lockIds hmem
  refine ⟨c.slot k, validLockId_eq_some.2 rfl, hi.active k hk, fun r => ?_⟩
  rw [Bool.eq_false_iff]
  intro hf
  obtain ⟨q, l, -, -, -, hreg⟩ := ((hi.node k hk).flag_iff r).1 hf
  rcases hq q with h | h <;> simp [h, Phase.registered] at hreg

theorem duel_quiescent_locks_clean :
    (∀ p, duelDone.phase p = .idle ∨ duelDone.phase p = .exited) ∧
      ∀ lockId ∈ duelGlobals.petersonLockIdsArray.getD [], ∃ i, validLockId lockId = some i ∧
        (duelDone.ptable i).active = true ∧ ∀ r, (duelDone.ptable i).flag r = false :=
  have hq : ∀ p, duelDone.phase p = .idle ∨ duelDone.phase p = .exited := by decide
  ⟨hq, tournament_quiescent_locks_clean tournamentCreate_two duelDone_reachable hq⟩

end PetersonTournament
