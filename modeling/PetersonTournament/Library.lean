import PetersonTournament.Lock

/-!
# The tournament library: validation, set-up and the path through the tree

`user/libtournament.c`. `tournament_create` checks the number of processes, records the
number of levels, fills `peterson_lock_ids_array` from `peterson_create` in breadth-first
order and forks. `tournament_acquire` and `tournament_release` both walk the path of their
process through that array, computing at each level `l` the same index and role. The messages
the library prints on failure are not modelled.
-/

namespace PetersonTournament

/-- The halving loop of `get_log2_if_power_of_2`. -/
def log2Loop (temp logVal : Nat) : Nat :=
  if temp > 1 then log2Loop (temp >>> 1) (logVal + 1) else logVal
termination_by temp
decreasing_by simp only [Nat.shiftRight_eq_div_pow, pow_one]; omega

/-- `get_log2_if_power_of_2`. -/
def getLog2IfPowerOf2 (n : Int) : Int :=
  if n ≤ 0 then -1
  else if n = 1 then 0
  else if n.toNat &&& (n.toNat - 1) ≠ 0 then -1
  else log2Loop n.toNat 0

/-- The library's globals: `peterson_lock_ids_array` (null, or the ids written to it so far),
`num_total_locks`, `N_processes`, `L_levels` and `my_id`. -/
structure Globals where
  petersonLockIdsArray : Option (List Int)
  numTotalLocks : Nat
  nProcesses : Nat
  lLevels : Nat
  myId : Int

/-- The globals' static initial values. -/
def Globals.initial : Globals := ⟨none, 0, 0, 0, -1⟩

/-- The globals of the process `tournament_create` gives tournament id `i`: the caller's, with
`my_id = i`. -/
def Globals.child (g : Globals) (i : Nat) : Globals := { g with myId := i }

/-- The loop of `tournament_create` that fills `peterson_lock_ids_array`: the ids written, whether
every `peterson_create` succeeded, and the lock table after. -/
def createLocks (t : PTable) : Nat → List Int × Bool × PTable
  | 0 => ([], true, t)
  | k + 1 =>
    if (sysPetersonCreate t).1 < 0 then ([(sysPetersonCreate t).1], false, (sysPetersonCreate t).2)
    else
      let rest := createLocks (sysPetersonCreate t).2 k
      ((sysPetersonCreate t).1 :: rest.1, rest.2.1, rest.2.2)

/-- The two checks `tournament_create` makes before it writes anything: the number of levels, or
`none` where it returns -1. -/
def tournamentLevels (processes : Int) : Option Nat :=
  if processes > 16 then none
  else if getLog2IfPowerOf2 processes = -1 then none
  else some (getLog2IfPowerOf2 processes).toNat

/-- `tournament_create`, as the calling process sees it, when its `malloc` and every `fork`
succeed, which the code's 0 return implies (`tournamentCreateWith_eq_zero`); the child with
tournament id `i` starts from the same globals with `my_id = i`. -/
def tournamentCreate (processes : Int) (g : Globals) (t : PTable) : Int × Globals × PTable :=
  match tournamentLevels processes with
  | none => (-1, g, t)
  | some levels =>
    let g := { g with lLevels := levels, nProcesses := processes.toNat,
                      numTotalLocks := processes.toNat - 1 }
    if g.numTotalLocks > 0 then
      let r := createLocks t g.numTotalLocks
      if r.2.1 then (0, { g with petersonLockIdsArray := some r.1, myId := 0 }, r.2.2)
      else (-1, { g with petersonLockIdsArray := some r.1 }, r.2.2)
    else (0, { g with petersonLockIdsArray := none, myId := 0 }, t)

/-- The loop of `tournament_create` that forks the children, `for (i = 1; i < N_processes; i++)`,
as the caller sees it: `forkOk i` says whether the `fork` for tournament id `i` succeeds; the caller
returns -1 at the first that fails, and `my_id` after the last. Its globals and the lock table do
not change. -/
def forkLoop (forkOk : Nat → Bool) (g : Globals) (t : PTable) : Int × Globals × PTable :=
  if (List.range' 1 (g.nProcesses - 1)).all forkOk then (g.myId, g, t) else (-1, g, t)

/-- `tournament_create` with the outcome of its `malloc` (`mallocOk`) and of each `fork` as inputs,
as the calling process sees it. A failed `malloc` leaves `peterson_lock_ids_array` null. -/
def tournamentCreateWith (mallocOk : Bool) (forkOk : Nat → Bool) (processes : Int) (g : Globals)
    (t : PTable) : Int × Globals × PTable :=
  match tournamentLevels processes with
  | none => (-1, g, t)
  | some levels =>
    let g := { g with lLevels := levels, nProcesses := processes.toNat,
                      numTotalLocks := processes.toNat - 1 }
    if g.numTotalLocks > 0 then
      if mallocOk then
        let r := createLocks t g.numTotalLocks
        if r.2.1 then forkLoop forkOk { g with petersonLockIdsArray := some r.1, myId := 0 } r.2.2
        else (-1, { g with petersonLockIdsArray := some r.1 }, r.2.2)
      else (-1, { g with petersonLockIdsArray := none }, t)
    else forkLoop forkOk { g with petersonLockIdsArray := none, myId := 0 } t

/-- `role_at_level`, computed alike by `tournament_acquire` and `tournament_release`. -/
def roleAtLevel (levels myId l : Nat) : Nat := (myId >>> (levels - 1 - l)) &&& 1

/-- `array_idx`, computed alike by both loops: the lock's position within level `l` plus the
number of locks above it. -/
def arrayIdx (levels myId l : Nat) : Nat := (myId >>> (levels - l)) + ((1 <<< l) - 1)

/-- The pairs `tournament_acquire` visits, `for (l = L_levels - 1; l >= 0; l--)`. -/
def acquirePath (levels myId : Nat) : List (Nat × Nat) :=
  (List.range levels).reverse.map fun l => (arrayIdx levels myId l, roleAtLevel levels myId l)

/-- The pairs `tournament_release` visits, `for (l = 0; l < L_levels; l++)`. -/
def releasePath (levels myId : Nat) : List (Nat × Nat) :=
  (List.range levels).map fun l => (arrayIdx levels myId l, roleAtLevel levels myId l)

/-- The path from node `k` of an array-embedded binary heap `d` levels up: each parent
`(k - 1) / 2`, with role 1 when `k` is its right child. -/
def heapPath (k : Nat) : Nat → List (Nat × Nat)
  | 0 => []
  | d + 1 => ((k - 1) / 2, if k % 2 = 0 then 1 else 0) :: heapPath ((k - 1) / 2) d

theorem log2Loop_two_pow (k : Nat) : ∀ logVal, log2Loop (2 ^ k) logVal = logVal + k := by
  induction k with
  | zero => intro v; rw [log2Loop]; simp
  | succ k ih =>
    intro v
    have h2 : 2 ^ (k + 1) >>> 1 = 2 ^ k := by
      rw [Nat.shiftRight_eq_div_pow, Nat.pow_succ, pow_one, Nat.mul_div_cancel _ Nat.two_pos]
    rw [log2Loop, if_pos (Nat.one_lt_two_pow (Nat.succ_ne_zero k)), h2, ih]
    omega

/-- `n & (n - 1)` clears the lowest set bit of `n`, so it is zero exactly on powers of two. -/
theorem and_sub_one_eq_zero {m : Nat} (hm : 0 < m) : m &&& (m - 1) = 0 ↔ ∃ k, m = 2 ^ k := by
  constructor
  · intro h
    have hle : 2 ^ m.log2 ≤ m := Nat.log2_self_le (by omega)
    have hlt : m < 2 ^ m.log2 * 2 := Nat.pow_succ .. ▸ Nat.lt_log2_self
    refine ⟨m.log2, ?_⟩
    by_contra hne
    have hbit : ∀ x < 2 ^ m.log2, (2 ^ m.log2 + x).testBit m.log2 = true := fun x hx => by
      rw [Nat.testBit_two_pow_add_eq, Nat.testBit_lt_two_pow hx]; rfl
    have h1 := hbit (m - 2 ^ m.log2) (by omega)
    have h2 := hbit (m - 1 - 2 ^ m.log2) (by omega)
    rw [show 2 ^ m.log2 + (m - 2 ^ m.log2) = m by omega] at h1
    rw [show 2 ^ m.log2 + (m - 1 - 2 ^ m.log2) = m - 1 by omega] at h2
    simpa [h1, h2] using congrArg (Nat.testBit · m.log2) h
  · rintro ⟨k, rfl⟩
    rw [Nat.and_pow_two_sub_one_eq_mod, Nat.mod_self]

/-- `get_log2_if_power_of_2` terminates on every `n`, with `k` on `2 ^ k` and -1 elsewhere. -/
theorem getLog2IfPowerOf2_spec (n : Int) :
    (∀ k : Nat, n = 2 ^ k → getLog2IfPowerOf2 n = k) ∧
    ((¬ ∃ k : Nat, n = 2 ^ k) → getLog2IfPowerOf2 n = -1) := by
  have hcast : ∀ k : Nat, n = 2 ^ k ↔ n.toNat = 2 ^ k := fun k => by
    have h1 : ((2 : Int) ^ k) = ((2 ^ k : Nat) : Int) := by norm_cast
    have h2 := Nat.two_pow_pos k
    rw [h1]; omega
  simp only [hcast]
  unfold getLog2IfPowerOf2
  split_ifs with h0 h1 h2
  · exact ⟨fun k hk => absurd hk (by have := Nat.two_pow_pos k; omega), fun _ => rfl⟩
  · subst h1
    refine ⟨fun k hk => ?_, fun hn => absurd ⟨0, rfl⟩ hn⟩
    exact_mod_cast (Nat.pow_right_injective (le_refl 2) (show 2 ^ k = 2 ^ 0 from hk.symm)).symm
  · exact ⟨fun k hk => absurd ((and_sub_one_eq_zero (by omega)).2 ⟨k, hk⟩) h2, fun _ => rfl⟩
  · obtain ⟨j, hj⟩ := (and_sub_one_eq_zero (by omega)).1 (not_not.1 h2)
    have hlog : log2Loop n.toNat 0 = j := by rw [hj, log2Loop_two_pow, Nat.zero_add]
    rw [hlog]
    exact ⟨fun k hk => by exact_mod_cast Nat.pow_right_injective (le_refl 2) (hj.symm.trans hk),
      fun h => absurd ⟨j, hj⟩ h⟩

theorem tournamentLevels_eq_some {n : Int} {L : Nat} :
    tournamentLevels n = some L ↔ n = 2 ^ L ∧ L ≤ 4 := by
  have h16 : ∀ k : Nat, ((2 : Int) ^ k ≤ 16 ↔ k ≤ 4) := fun k => by
    have : ((2 : Int) ^ k) = ((2 ^ k : Nat) : Int) := by norm_cast
    rw [this, show (16 : Int) = ((2 ^ 4 : Nat) : Int) from rfl, Int.ofNat_le]
    exact Nat.pow_le_pow_iff_right (by decide)
  obtain ⟨hpow, hnot⟩ := getLog2IfPowerOf2_spec n
  unfold tournamentLevels
  by_cases hp : ∃ k : Nat, n = 2 ^ k
  · obtain ⟨k, rfl⟩ := hp
    rw [hpow k rfl]
    by_cases hk : k ≤ 4
    · simp only [show ¬ (2 : Int) ^ k > 16 from not_lt.2 ((h16 k).2 hk), if_false]
      simp only [show (k : Int) ≠ -1 by omega, if_false, Option.some.injEq, Int.toNat_natCast]
      constructor
      · rintro rfl; exact ⟨rfl, hk⟩
      · rintro ⟨he, -⟩; exact Nat.pow_right_injective (le_refl 2) (by exact_mod_cast he)
    · simp only [show (2 : Int) ^ k > 16 from lt_of_not_le (mt (h16 k).1 hk), if_true]
      simp only [reduceCtorEq, false_iff, not_and]
      intro he hL
      exact hk ((Nat.pow_right_injective (le_refl 2) (by exact_mod_cast he)) ▸ hL)
  · rw [hnot hp]
    simp only [ite_self, if_true, reduceCtorEq, false_iff, not_and]
    exact fun he => absurd ⟨L, he⟩ hp

theorem mem_participant_counts {n : Int} :
    n ∈ [1, 2, 4, 8, 16] ↔ ∃ L : Nat, n = 2 ^ L ∧ L ≤ 4 := by
  constructor
  · simp only [List.mem_cons, List.mem_singleton, List.not_mem_nil, or_false]
    rintro (rfl | rfl | rfl | rfl | rfl)
    exacts [⟨0, rfl, by decide⟩, ⟨1, rfl, by decide⟩, ⟨2, rfl, by decide⟩, ⟨3, rfl, by decide⟩,
      ⟨4, rfl, by decide⟩]
  · rintro ⟨L, rfl, hL⟩
    obtain rfl | rfl | rfl | rfl | rfl : L = 0 ∨ L = 1 ∨ L = 2 ∨ L = 3 ∨ L = 4 := by omega
    all_goals decide

theorem tournamentCreate_globals {n : Int} {L : Nat} (h : tournamentLevels n = some L)
    (g : Globals) (t : PTable) :
    (tournamentCreate n g t).2.1.lLevels = L ∧ (tournamentCreate n g t).2.1.nProcesses = 2 ^ L ∧
      (tournamentCreate n g t).2.1.numTotalLocks = 2 ^ L - 1 := by
  obtain ⟨rfl, -⟩ := tournamentLevels_eq_some.1 h
  have hn : ((2 : Int) ^ L).toNat = 2 ^ L := by norm_cast
  unfold tournamentCreate
  rw [h]
  simp only [hn]
  split_ifs <;> simp

theorem createLocks_spec : ∀ (k : Nat) (t : PTable) {ids : List Int} {t' : PTable},
    createLocks t k = (ids, true, t') →
    ∃ hs : List (Fin nPetersonLocks),
      ids = hs.map (fun i : Fin nPetersonLocks => ((i : Nat) : Int)) ∧
      hs.length = k ∧ hs.Nodup ∧ (∀ i ∈ hs, (t i).active = false ∧ t' i = PetersonLock.fresh) ∧
      ∀ j, j ∉ hs → t' j = t j
  | 0, t, ids, t', h => by
    simp only [createLocks, Prod.mk.injEq] at h
    obtain ⟨rfl, -, rfl⟩ := h
    exact ⟨[], rfl, rfl, List.nodup_nil, by simp, fun _ _ => rfl⟩
  | k + 1, t, ids, t', h => by
    rw [createLocks] at h
    split_ifs at h with hneg
    · simp at h
    obtain ⟨i, hi, hia, ht₁⟩ := sysPetersonCreate_ok hneg
    generalize hr : createLocks (sysPetersonCreate t).2 k = r at h
    obtain ⟨ids', b, t''⟩ := r
    simp only [Prod.mk.injEq] at h
    obtain ⟨rfl, rfl, rfl⟩ := h
    rw [ht₁] at hr
    obtain ⟨hs, hids, hlen, hnd, hfr, hfix⟩ := createLocks_spec k _ hr
    have hni : i ∉ hs := fun hm => by simpa [PetersonLock.fresh] using (hfr i hm).1
    have hne : ∀ j ∈ hs, j ≠ i := fun j hj e => hni (e ▸ hj)
    refine ⟨i :: hs, by rw [hi, hids, List.map_cons], by simp [hlen], List.nodup_cons.2 ⟨hni, hnd⟩,
      ?_, fun j hj => ?_⟩
    · simp only [List.mem_cons, forall_eq_or_imp]
      refine ⟨⟨hia, by rw [hfix i hni, Function.update_same]⟩, fun j hj => ?_⟩
      simpa [Function.update_noteq (hne j hj)] using hfr j hj
    · simp only [List.mem_cons, not_or] at hj
      rw [hfix j hj.2, Function.update_noteq hj.1]

/-- The loop of `tournament_create` stops at the first failed `peterson_create`, which fails only
on a full table. Nothing is freed: the table is left full, and slots active before the loop are
untouched. -/
theorem createLocks_fail : ∀ (k : Nat) (t : PTable) {ids : List Int} {t' : PTable},
    createLocks t k = (ids, false, t') →
    (∀ i, (t' i).active = true) ∧ ∀ i, (t i).active = true → t' i = t i
  | 0, t, ids, t', h => by simp [createLocks] at h
  | k + 1, t, ids, t', h => by
    rw [createLocks] at h
    split_ifs at h with hneg
    · simp only [Prod.mk.injEq] at h
      obtain ⟨-, -, rfl⟩ := h
      rcases petersonAlloc_spec t with ⟨i, -, -, he⟩ | ⟨hall, he⟩
      · simp only [sysPetersonCreate, he] at hneg
        omega
      · simp [sysPetersonCreate, he, hall]
    obtain ⟨i, hi, hia, ht₁⟩ := sysPetersonCreate_ok hneg
    generalize hr : createLocks (sysPetersonCreate t).2 k = r at h
    obtain ⟨ids', b, t''⟩ := r
    simp only [Prod.mk.injEq] at h
    obtain ⟨-, rfl, rfl⟩ := h
    rw [ht₁] at hr
    obtain ⟨hfull, hfix⟩ := createLocks_fail k _ hr
    refine ⟨hfull, fun j hj => ?_⟩
    have hji : j ≠ i := by
      rintro rfl
      rw [hia] at hj
      cases hj
    rw [hfix j (by rwa [Function.update_noteq hji]), Function.update_noteq hji]

/-- What `tournament_create` leaves when it returns 0: `L_levels`, and the slots whose ids fill
`peterson_lock_ids_array`, in order. -/
structure Config where
  levels : Nat
  slots : List (Fin nPetersonLocks)
  length_slots : slots.length = 2 ^ levels - 1
  nodup_slots : slots.Nodup

/-- The globals of the participant with tournament id `p`: the caller's, with `my_id = p`. -/
def Config.globals (c : Config) (p : Nat) : Globals where
  petersonLockIdsArray :=
    if 2 ^ c.levels - 1 > 0 then some (c.slots.map fun i : Fin nPetersonLocks => ((i : Nat) : Int))
    else none
  numTotalLocks := 2 ^ c.levels - 1
  nProcesses := 2 ^ c.levels
  lLevels := c.levels
  myId := p

/-- The slot of the lock at position `k` of `peterson_lock_ids_array`. -/
def Config.slot (c : Config) (k : Nat) : Fin nPetersonLocks := c.slots.getD k 0

theorem tournamentCreate_config {n : Int} {g₀ g : Globals} {t₀ t : PTable}
    (h : tournamentCreate n g₀ t₀ = (0, g, t)) :
    ∃ c : Config, g = c.globals 0 ∧ ∀ i ∈ c.slots, t i = PetersonLock.fresh := by
  unfold tournamentCreate at h
  cases hL : tournamentLevels n with
  | none => simp [hL] at h
  | some L =>
    obtain ⟨rfl, -⟩ := tournamentLevels_eq_some.1 hL
    have hn : ((2 : Int) ^ L).toNat = 2 ^ L := by norm_cast
    simp only [hL, hn] at h
    split_ifs at h with h0 hok
    · simp only [Prod.mk.injEq, true_and] at h
      obtain ⟨rfl, rfl⟩ := h
      obtain ⟨hs, hids, hlen, hnd, hfr, -⟩ :=
        createLocks_spec _ t₀ (Prod.ext rfl (Prod.ext hok rfl))
      exact ⟨⟨L, hs, hlen, hnd⟩, by simp [Config.globals, h0, hids], fun i hi => (hfr i hi).2⟩
    · simp at h
    · simp only [Prod.mk.injEq, true_and] at h
      obtain ⟨rfl, rfl⟩ := h
      exact ⟨⟨L, [], by simp only [List.length_nil]; omega, List.nodup_nil⟩,
        by simp [Config.globals, h0], by simp⟩

/-- The code's `tournament_create` returns 0 only when its `malloc` and every `fork` succeeded, and
then it leaves what `tournamentCreate` does. -/
theorem tournamentCreateWith_eq_zero {mallocOk : Bool} {forkOk : Nat → Bool} {n : Int}
    {g₀ g : Globals} {t₀ t : PTable} (h : tournamentCreateWith mallocOk forkOk n g₀ t₀ = (0, g, t)) :
    tournamentCreate n g₀ t₀ = (0, g, t) := by
  unfold tournamentCreateWith forkLoop at h
  unfold tournamentCreate
  split at h
  · simp at h
  · simp only at h ⊢
    split_ifs at h ⊢ <;> first | exact h | simp at h

/-- The caller's globals after `tournament_create(2)`: one lock, in slot 0. -/
def duelGlobals : Globals := ⟨some [0], 1, 2, 1, 0⟩

/-- The lock table after `tournament_create(2)` on an empty table. -/
def duelTable : PTable := Function.update petersonInit 0 PetersonLock.fresh

theorem tournamentCreate_two :
    tournamentCreate 2 Globals.initial petersonInit = (0, duelGlobals, duelTable) := by
  have h : tournamentLevels 2 = some 1 := tournamentLevels_eq_some.2 ⟨rfl, by decide⟩
  rw [tournamentCreate, h]
  rfl

/-- After its checks pass, `tournament_create` returns -1 in three ways: its `malloc` failed, and
the table is untouched; a `peterson_create` failed, and the table is then full, nothing undone;
or a `fork` failed, after every lock was created as on a 0 return. -/
theorem create_failure_exhausts_pool {mallocOk : Bool} {forkOk : Nat → Bool} {n : Int}
    {g₀ g : Globals} {t₀ t : PTable} {L : Nat} (hL : tournamentLevels n = some L)
    (h : tournamentCreateWith mallocOk forkOk n g₀ t₀ = (-1, g, t)) :
    (mallocOk = false ∧ t = t₀) ∨
      ((∀ i, (t i).active = true) ∧ ∀ i, (t₀ i).active = true → t i = t₀ i) ∨
      ((∃ i, 0 < i ∧ i < 2 ^ L ∧ forkOk i = false) ∧ tournamentCreate n g₀ t₀ = (0, g, t)) := by
  obtain ⟨rfl, -⟩ := tournamentLevels_eq_some.1 hL
  have hn : ((2 : Int) ^ L).toNat = 2 ^ L := by norm_cast
  unfold tournamentCreateWith forkLoop at h
  unfold tournamentCreate
  simp only [hL, hn] at h ⊢
  by_cases h0 : 2 ^ L - 1 > 0
  · simp only [h0, if_true] at h ⊢
    cases mallocOk
    · -- `malloc` failed
      simp only [Bool.false_eq_true, if_false, Prod.mk.injEq] at h
      exact .inl ⟨rfl, h.2.2.symm⟩
    cases hok : (createLocks t₀ (2 ^ L - 1)).2.1
    · -- a `peterson_create` failed
      simp only [hok, if_true, Bool.false_eq_true, if_false, Prod.mk.injEq] at h
      obtain ⟨-, -, rfl⟩ := h
      exact .inr (.inl (createLocks_fail _ t₀ (Prod.ext rfl (Prod.ext hok rfl))))
    cases hall : (List.range' 1 (2 ^ L - 1)).all forkOk
    · -- a `fork` failed
      simp only [hok, hall, if_true, Bool.false_eq_true, if_false, Prod.mk.injEq] at h ⊢
      obtain ⟨-, rfl, rfl⟩ := h
      obtain ⟨i, hi, hf⟩ := List.all_eq_false.1 hall
      rw [List.mem_range'_1] at hi
      exact .inr (.inr ⟨⟨i, by omega, by omega, by simpa using hf⟩, trivial, rfl, rfl⟩)
    · simp [hok, hall] at h
  · simp [show 2 ^ L - 1 = 0 by omega] at h

theorem create_fork_fails_after_locks :
    tournamentCreateWith true (· != 1) 2 Globals.initial petersonInit = (-1, duelGlobals, duelTable) ∧
      ((true = false ∧ duelTable = petersonInit) ∨
        ((∀ i, (duelTable i).active = true) ∧
          ∀ i, (petersonInit i).active = true → duelTable i = petersonInit i) ∨
        ((∃ i, 0 < i ∧ i < 2 ^ 1 ∧ (i != 1) = false) ∧
          tournamentCreate 2 Globals.initial petersonInit = (0, duelGlobals, duelTable))) :=
  have hL : tournamentLevels 2 = some 1 := tournamentLevels_eq_some.2 ⟨rfl, by decide⟩
  have h : tournamentCreateWith true (· != 1) 2 Globals.initial petersonInit =
      (-1, duelGlobals, duelTable) := by
    rw [tournamentCreateWith, hL]
    rfl
  ⟨h, create_failure_exhausts_pool hL h⟩

theorem participant_count_validation (n : Int) (g : Globals) (t : PTable) :
    (tournamentLevels n = none ↔ n ∉ [1, 2, 4, 8, 16]) ∧
    (tournamentLevels n = none → tournamentCreate n g t = (-1, g, t)) ∧
    (∀ L, tournamentLevels n = some L → n = 2 ^ L ∧ (tournamentCreate n g t).2.1.lLevels = L ∧
      (tournamentCreate n g t).2.1.nProcesses = 2 ^ L ∧
      (tournamentCreate n g t).2.1.numTotalLocks = 2 ^ L - 1) ∧
    (∀ k : Nat, n = 2 ^ k → getLog2IfPowerOf2 n = k) ∧
    ((¬ ∃ k : Nat, n = 2 ^ k) → getLog2IfPowerOf2 n = -1) := by
  refine ⟨?_, fun h => by simp [tournamentCreate, h], fun L h =>
    ⟨(tournamentLevels_eq_some.1 h).1, tournamentCreate_globals h g t⟩, getLog2IfPowerOf2_spec n⟩
  rw [mem_participant_counts, Option.eq_none_iff_forall_not_mem]
  simp only [Option.mem_def, tournamentLevels_eq_some, not_exists]

theorem arrayIdx_eq (levels myId l : Nat) :
    arrayIdx levels myId l = myId / 2 ^ (levels - l) + 2 ^ l - 1 := by
  rw [arrayIdx, Nat.shiftRight_eq_div_pow, Nat.one_shiftLeft, Nat.add_sub_assoc (Nat.two_pow_pos l)]

theorem roleAtLevel_eq (levels myId l : Nat) :
    roleAtLevel levels myId l = myId / 2 ^ (levels - 1 - l) % 2 := by
  rw [roleAtLevel, Nat.shiftRight_eq_div_pow, Nat.and_one_is_mod]

/-- One level up the heap: the index at level `j` is the parent of the one at level `j + 1`, and
the role at level `j` says which child that was. -/
theorem arrayIdx_parent {levels j : Nat} (myId : Nat) (hj : j < levels) :
    (arrayIdx levels myId (j + 1) - 1) / 2 = arrayIdx levels myId j ∧
    (if arrayIdx levels myId (j + 1) % 2 = 0 then 1 else 0) = roleAtLevel levels myId j := by
  rw [arrayIdx_eq, arrayIdx_eq, roleAtLevel_eq]
  have hd : myId / 2 ^ (levels - j) = myId / 2 ^ (levels - 1 - j) / 2 := by
    rw [Nat.div_div_eq_div_mul, ← pow_succ, show levels - 1 - j + 1 = levels - j by omega]
  have hP : 0 < 2 ^ j := Nat.two_pow_pos j
  rw [hd, show levels - (j + 1) = levels - 1 - j by omega, pow_succ]
  generalize 2 ^ j = P at *
  generalize myId / 2 ^ (levels - 1 - j) = x
  constructor
  · omega
  · split <;> omega

theorem heapPath_arrayIdx {levels : Nat} (myId : Nat) : ∀ j ≤ levels,
    heapPath (arrayIdx levels myId j) j =
      (List.range j).reverse.map fun l => (arrayIdx levels myId l, roleAtLevel levels myId l)
  | 0, _ => rfl
  | j + 1, hj => by
    obtain ⟨h1, h2⟩ := arrayIdx_parent myId (show j < levels by omega)
    rw [heapPath, h1, h2, heapPath_arrayIdx myId j (by omega), List.range_succ,
      List.reverse_append]
    rfl

theorem arrayIdx_mem_level {levels myId l : Nat} (h : myId < 2 ^ levels) (hl : l < levels) :
    2 ^ l - 1 ≤ arrayIdx levels myId l ∧ arrayIdx levels myId l < 2 ^ (l + 1) - 1 := by
  rw [arrayIdx_eq]
  have hq : myId / 2 ^ (levels - l) < 2 ^ l := by
    rw [Nat.div_lt_iff_lt_mul (Nat.two_pow_pos _), ← pow_add, Nat.add_sub_cancel' hl.le]
    exact h
  have hP : 0 < 2 ^ l := Nat.two_pow_pos l
  rw [pow_succ]
  generalize 2 ^ l = P at *
  generalize myId / 2 ^ (levels - l) = q at *
  omega

theorem arrayIdx_lt_nodes {levels myId l : Nat} (h : myId < 2 ^ levels) (hl : l < levels) :
    arrayIdx levels myId l < 2 ^ levels - 1 := by
  have h1 := (arrayIdx_mem_level h hl).2
  have : 2 ^ (l + 1) ≤ 2 ^ levels := Nat.pow_le_pow_right (by decide) hl
  omega

theorem arrayIdx_zero {levels myId : Nat} (h : myId < 2 ^ levels) : arrayIdx levels myId 0 = 0 := by
  rw [arrayIdx_eq, Nat.div_eq_of_lt (by simpa using h)]
  rfl

theorem arrayIdx_level_inj {levels p q l l' : Nat} (hp : p < 2 ^ levels) (hq : q < 2 ^ levels)
    (hl : l < levels) (hl' : l' < levels) (h : arrayIdx levels p l = arrayIdx levels q l') :
    l = l' := by
  have h1 := arrayIdx_mem_level hp hl
  have h2 := arrayIdx_mem_level hq hl'
  rcases Nat.lt_trichotomy l l' with hlt | heq | hlt
  · have : 2 ^ (l + 1) ≤ 2 ^ l' := Nat.pow_le_pow_right (by decide) hlt
    omega
  · exact heq
  · have : 2 ^ (l' + 1) ≤ 2 ^ l := Nat.pow_le_pow_right (by decide) hlt
    omega

theorem arrayIdx_child {levels p q l : Nat} (hl : l + 1 < levels)
    (hk : arrayIdx levels p l = arrayIdx levels q l)
    (hr : roleAtLevel levels p l = roleAtLevel levels q l) :
    arrayIdx levels p (l + 1) = arrayIdx levels q (l + 1) := by
  obtain ⟨hp₁, hp₂⟩ := arrayIdx_parent p (show l < levels by omega)
  obtain ⟨hq₁, hq₂⟩ := arrayIdx_parent q (show l < levels by omega)
  have hpos : ∀ x, 1 ≤ arrayIdx levels x (l + 1) := fun x => by
    rw [arrayIdx_eq]
    have : 2 ≤ 2 ^ (l + 1) := Nat.le_self_pow (Nat.succ_ne_zero l) 2
    generalize x / 2 ^ (levels - (l + 1)) = d
    omega
  have h1 := hpos p
  have h2 := hpos q
  rw [hk, ← hq₁] at hp₁
  rw [hr, ← hq₂] at hp₂
  rcases Nat.mod_two_eq_zero_or_one (arrayIdx levels p (l + 1)) with hp | hp <;>
    rcases Nat.mod_two_eq_zero_or_one (arrayIdx levels q (l + 1)) with hq | hq <;>
    simp [hp, hq] at hp₂ <;> omega

theorem eq_of_leaf {levels p q : Nat} (hL : 0 < levels)
    (hk : arrayIdx levels p (levels - 1) = arrayIdx levels q (levels - 1))
    (hr : roleAtLevel levels p (levels - 1) = roleAtLevel levels q (levels - 1)) : p = q := by
  rw [arrayIdx_eq, arrayIdx_eq, show levels - (levels - 1) = 1 by omega, pow_one] at hk
  rw [roleAtLevel_eq, roleAtLevel_eq, show levels - 1 - (levels - 1) = 0 by omega, pow_zero,
    Nat.div_one, Nat.div_one] at hr
  have := Nat.two_pow_pos (levels - 1)
  omega

/-- `tournament_acquire` climbs the heap path from the virtual leaf `my_id + 2^L - 1` to the
root, every index stays within its level and within the `2^L - 1` locks, so neither loop's
bounds check fires, and `tournament_release` walks the same pairs in reverse. -/
theorem tree_path_mapping (levels myId : Nat) (h : myId < 2 ^ levels) :
    acquirePath levels myId = heapPath (myId + 2 ^ levels - 1) levels ∧
    (∀ l < levels, 2 ^ l - 1 ≤ arrayIdx levels myId l ∧
      arrayIdx levels myId l < 2 ^ (l + 1) - 1 ∧ arrayIdx levels myId l < 2 ^ levels - 1) ∧
    releasePath levels myId = (acquirePath levels myId).reverse := by
  refine ⟨?_, fun l hl => ?_, by simp [acquirePath, releasePath, List.map_reverse]⟩
  · rw [show myId + 2 ^ levels - 1 = arrayIdx levels myId levels by simp [arrayIdx_eq]]
    exact (heapPath_arrayIdx myId levels le_rfl).symm
  · exact ⟨(arrayIdx_mem_level h hl).1, (arrayIdx_mem_level h hl).2, arrayIdx_lt_nodes h hl⟩

theorem tree_path_mapping_four : acquirePath 2 3 = heapPath (3 + 2 ^ 2 - 1) 2 ∧
    (∀ l < 2, 2 ^ l - 1 ≤ arrayIdx 2 3 l ∧ arrayIdx 2 3 l < 2 ^ (l + 1) - 1 ∧
      arrayIdx 2 3 l < 2 ^ 2 - 1) ∧
    releasePath 2 3 = (acquirePath 2 3).reverse :=
  tree_path_mapping 2 3 (by decide)

end PetersonTournament
