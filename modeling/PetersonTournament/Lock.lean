import Mathlib.Data.Fintype.Basic
import Mathlib.Data.List.OfFn
import Mathlib.Data.List.FinRange

/-!
# The kernel's table of Peterson locks

`kernel/peterson.h` and `kernel/peterson.c`: `NPETERSONLOCKS` slots, each an `active` bit, two
interest flags and a `turn`, handed out by index. Each system call is one step, since its body
runs under `ptable_lock` or the slot's spinlock; the one exception is the wait loop of
`sys_peterson_acquire`, which drops the spinlock to yield, so its entry section and each
re-check are steps of their own. The slot's `name` is written and never read, and is left out.
-/

namespace PetersonTournament

/-- `NPETERSONLOCKS`. -/
abbrev nPetersonLocks : Nat := 16

/-- `struct peterson_lock`. The code stores only 0 and 1 in `flag` and `turn`. -/
structure PetersonLock where
  active : Bool
  flag : Fin 2 → Bool
  turn : Fin 2
  deriving DecidableEq

/-- The slot as `peterson_init` and `peterson_free` leave it. -/
def PetersonLock.unused : PetersonLock := ⟨false, fun _ => false, 0⟩

/-- The slot as `peterson_alloc` hands it out. -/
def PetersonLock.fresh : PetersonLock := ⟨true, fun _ => false, 0⟩

/-- `ptable`, indexed by lock id. -/
abbrev PTable := Fin nPetersonLocks → PetersonLock

/-- `peterson_init`. -/
def petersonInit : PTable := fun _ => PetersonLock.unused

/-- `peterson_alloc`: the first inactive slot, made fresh, or -1. -/
def petersonAlloc (t : PTable) : Int × PTable :=
  match (List.finRange nPetersonLocks).find? (fun i => !(t i).active) with
  | some i => (i, Function.update t i PetersonLock.fresh)
  | none => (-1, t)

/-- `peterson_free`. Its panic on an inactive slot is excluded by the argument `_h`. -/
def petersonFree (t : PTable) (id : Fin nPetersonLocks) (_h : (t id).active = true) : PTable :=
  Function.update t id PetersonLock.unused

/-- `sys_peterson_create`: `peterson_alloc` under `ptable_lock`. -/
def sysPetersonCreate (t : PTable) : Int × PTable := petersonAlloc t

/-- The argument check shared by `sys_peterson_acquire` and `sys_peterson_release`. -/
def validLockArgs (lockId role : Int) : Option (Fin nPetersonLocks × Fin 2) :=
  if h : lockId < 0 ∨ lockId ≥ nPetersonLocks ∨ (role ≠ 0 ∧ role ≠ 1) then none
  else some (⟨lockId.toNat, by unfold nPetersonLocks at *; omega⟩, ⟨role.toNat, by omega⟩)

/-- The argument check of `sys_peterson_destroy`. -/
def validLockId (lockId : Int) : Option (Fin nPetersonLocks) :=
  if h : lockId < 0 ∨ lockId ≥ nPetersonLocks then none
  else some ⟨lockId.toNat, by unfold nPetersonLocks at *; omega⟩

/-- How a guarded section of `sys_peterson_acquire` ends. -/
inductive AcquireOutcome
  /-- The argument check failed. -/
  | invalidArgument
  /-- The slot was inactive on entry. -/
  | lockInactive
  /-- The check inside the wait loop, before yielding. -/
  | destroyedWhileWaiting
  /-- The check after the wait loop. -/
  | destroyedBeforeAcquisition
  /-- The wait condition holds: release the spinlock and yield. -/
  | spin
  /-- The lock is held. -/
  | acquired
  deriving DecidableEq, Repr

/-- The value the system call returns, if the section returns. -/
def AcquireOutcome.ret : AcquireOutcome → Option Int
  | .spin => none
  | .acquired => some 0
  | _ => some (-1)

@[simp] theorem AcquireOutcome.ret_eq_none {o : AcquireOutcome} : o.ret = none ↔ o = .spin := by
  cases o <;> simp [AcquireOutcome.ret]

/-- `pl->flag[1 - role] == 1 && pl->turn == (1 - role)`. -/
def waitCondition (pl : PetersonLock) (role : Fin 2) : Bool :=
  pl.flag (1 - role) && pl.turn == 1 - role

/-- One test of the wait loop, with the `active` check that follows it either way. -/
def waitTest (pl : PetersonLock) (role : Fin 2) : AcquireOutcome :=
  if waitCondition pl role then
    if !pl.active then .destroyedWhileWaiting else .spin
  else if !pl.active then .destroyedBeforeAcquisition else .acquired

/-- `pl->flag[role] = 1; pl->turn = 1 - role;`. -/
def announce (pl : PetersonLock) (role : Fin 2) : PetersonLock :=
  { pl with flag := Function.update pl.flag role true, turn := 1 - role }

/-- `pl->flag[role] = 0;`. -/
def withdraw (pl : PetersonLock) (role : Fin 2) : PetersonLock :=
  { pl with flag := Function.update pl.flag role false }

/-- `sys_peterson_acquire` from its argument check to its first test of the wait loop. -/
def sysPetersonAcquire (t : PTable) (lockId role : Int) : AcquireOutcome × PTable :=
  match validLockArgs lockId role with
  | none => (.invalidArgument, t)
  | some (i, r) =>
    if !(t i).active then (.lockInactive, t)
    else (waitTest (announce (t i) r) r, Function.update t i (announce (t i) r))

/-- A later iteration of the wait loop: `pl->lk` is taken again and the test repeated. -/
def petersonRecheck (t : PTable) (i : Fin nPetersonLocks) (r : Fin 2) : AcquireOutcome :=
  waitTest (t i) r

/-- `sys_peterson_release`. -/
def sysPetersonRelease (t : PTable) (lockId role : Int) : Int × PTable :=
  match validLockArgs lockId role with
  | none => (-1, t)
  | some (i, r) =>
    if !(t i).active then (-1, t)
    else (0, Function.update t i (withdraw (t i) r))

/-- `sys_peterson_destroy`. -/
def sysPetersonDestroy (t : PTable) (lockId : Int) : Int × PTable :=
  match validLockId lockId with
  | none => (-1, t)
  | some i => if h : (t i).active = false then (-1, t) else (0, petersonFree t i (by simpa using h))

@[simp] theorem validLockArgs_coe (i : Fin nPetersonLocks) (r : Fin 2) :
    validLockArgs i r = some (i, r) := by
  have hi := i.isLt
  have hr := r.isLt
  unfold validLockArgs nPetersonLocks at *
  rw [dif_neg (by omega)]
  congr

theorem validLockArgs_eq_some {lockId role : Int} {i : Fin nPetersonLocks} {r : Fin 2} :
    validLockArgs lockId role = some (i, r) ↔ lockId = i ∧ role = r := by
  constructor
  · unfold validLockArgs
    split
    · simp
    · simp only [Option.some.injEq, Prod.mk.injEq, and_imp]
      rintro rfl rfl
      constructor <;> simp only [Fin.val_natCast] <;> omega
  · rintro ⟨rfl, rfl⟩
    exact validLockArgs_coe i r

theorem validLockId_eq_some {lockId : Int} {i : Fin nPetersonLocks} :
    validLockId lockId = some i ↔ lockId = i := by
  unfold validLockId
  split
  · simp only [reduceCtorEq, false_iff]
    rintro rfl
    have := i.isLt
    unfold nPetersonLocks at *
    omega
  · simp only [Option.some.injEq]
    constructor
    · rintro rfl
      simp only [Fin.val_natCast]
      omega
    · rintro rfl
      ext
      simp

@[simp] theorem announce_active (pl : PetersonLock) (r : Fin 2) :
    (announce pl r).active = pl.active := rfl

@[simp] theorem announce_turn (pl : PetersonLock) (r : Fin 2) : (announce pl r).turn = 1 - r := rfl

@[simp] theorem announce_flag (pl : PetersonLock) (r : Fin 2) :
    (announce pl r).flag = Function.update pl.flag r true := rfl

@[simp] theorem withdraw_active (pl : PetersonLock) (r : Fin 2) :
    (withdraw pl r).active = pl.active := rfl

@[simp] theorem withdraw_turn (pl : PetersonLock) (r : Fin 2) :
    (withdraw pl r).turn = pl.turn := rfl

@[simp] theorem withdraw_flag (pl : PetersonLock) (r : Fin 2) :
    (withdraw pl r).flag = Function.update pl.flag r false := rfl

theorem waitTest_of_active {pl : PetersonLock} (h : pl.active = true) (r : Fin 2) :
    waitTest pl r = if waitCondition pl r then .spin else .acquired := by
  simp [waitTest, h]

theorem waitTest_of_inactive {pl : PetersonLock} (h : pl.active = false) (r : Fin 2) :
    waitTest pl r = if waitCondition pl r then .destroyedWhileWaiting
      else .destroyedBeforeAcquisition := by
  simp [waitTest, h]

/-- `peterson_alloc` hands out the least inactive slot, fresh, and changes nothing else; it fails
exactly when every slot is active. -/
theorem petersonAlloc_spec (t : PTable) :
    (∃ i, (t i).active = false ∧ (∀ j < i, (t j).active = true) ∧
      petersonAlloc t = (((i : Nat) : Int), Function.update t i PetersonLock.fresh)) ∨
    ((∀ i, (t i).active = true) ∧ petersonAlloc t = (-1, t)) := by
  unfold petersonAlloc
  cases h : (List.finRange nPetersonLocks).find? (fun i => !(t i).active) with
  | some i =>
    have hi := (List.find?_ofFn_eq_some_of_injective (f := fun i : Fin nPetersonLocks => i)
      (i := i) Function.injective_id).1 h
    exact .inl ⟨i, by simpa using hi.1, fun j hj => by simpa using hi.2 j hj, rfl⟩
  | none =>
    refine .inr ⟨fun i => ?_, rfl⟩
    simpa using List.find?_eq_none.1 h i (List.mem_finRange i)

theorem sysPetersonAcquire_coe (t : PTable) (i : Fin nPetersonLocks) (r : Fin 2) :
    sysPetersonAcquire t i r = if (t i).active = false then (.lockInactive, t)
      else (waitTest (announce (t i) r) r, Function.update t i (announce (t i) r)) := by
  simp [sysPetersonAcquire]

theorem sysPetersonRelease_coe (t : PTable) (i : Fin nPetersonLocks) (r : Fin 2) :
    sysPetersonRelease t i r = if (t i).active = false then (-1, t)
      else (0, Function.update t i (withdraw (t i) r)) := by
  simp [sysPetersonRelease]

theorem sysPetersonAcquire_cases (t : PTable) (lockId role : Int) :
    sysPetersonAcquire t lockId role = (.invalidArgument, t) ∨
    sysPetersonAcquire t lockId role = (.lockInactive, t) ∨
    ∃ (i : Fin nPetersonLocks) (r : Fin 2), lockId = i ∧ role = r ∧ (t i).active = true ∧
      sysPetersonAcquire t lockId role =
        (waitTest (announce (t i) r) r, Function.update t i (announce (t i) r)) := by
  cases h : validLockArgs lockId role with
  | none => simp [sysPetersonAcquire, h]
  | some ir =>
    obtain ⟨rfl, rfl⟩ := validLockArgs_eq_some.1 h
    rw [sysPetersonAcquire_coe]
    by_cases ha : (t ir.1).active = false
    · simp [ha]
    · exact .inr (.inr ⟨ir.1, ir.2, rfl, rfl, by simpa using ha, by simp [ha]⟩)

theorem sysPetersonRelease_cases (t : PTable) (lockId role : Int) :
    sysPetersonRelease t lockId role = (-1, t) ∨
    ∃ (i : Fin nPetersonLocks) (r : Fin 2), lockId = i ∧ role = r ∧ (t i).active = true ∧
      sysPetersonRelease t lockId role = (0, Function.update t i (withdraw (t i) r)) := by
  cases h : validLockArgs lockId role with
  | none => simp [sysPetersonRelease, h]
  | some ir =>
    obtain ⟨rfl, rfl⟩ := validLockArgs_eq_some.1 h
    rw [sysPetersonRelease_coe]
    by_cases ha : (t ir.1).active = false
    · simp [ha]
    · exact .inr ⟨ir.1, ir.2, rfl, rfl, by simpa using ha, by simp [ha]⟩

theorem sysPetersonDestroy_cases (t : PTable) (lockId : Int) :
    sysPetersonDestroy t lockId = (-1, t) ∨
    ∃ i : Fin nPetersonLocks, lockId = i ∧ (t i).active = true ∧
      sysPetersonDestroy t lockId = (0, Function.update t i PetersonLock.unused) := by
  cases h : validLockId lockId with
  | none => simp [sysPetersonDestroy, h]
  | some i =>
    obtain rfl := validLockId_eq_some.1 h
    by_cases ha : (t i).active = false
    · simp [sysPetersonDestroy, h, ha]
    · exact .inr ⟨i, rfl, by simpa using ha, by simp [sysPetersonDestroy, h, ha, petersonFree]⟩

theorem sysPetersonCreate_fail {t : PTable} (h : (sysPetersonCreate t).1 = -1) :
    (sysPetersonCreate t).2 = t := by
  rcases petersonAlloc_spec t with ⟨i, -, -, he⟩ | ⟨-, he⟩ <;>
    simp only [sysPetersonCreate, he] at h ⊢
  omega

theorem sysPetersonAcquire_fail {t : PTable} {lockId role : Int}
    (h : (sysPetersonAcquire t lockId role).1.ret = some (-1)) :
    (sysPetersonAcquire t lockId role).2 = t := by
  rcases sysPetersonAcquire_cases t lockId role with he | he | ⟨i, r, -, -, ha, he⟩ <;>
    rw [he] at h ⊢
  rw [waitTest_of_active (by simpa using ha)] at h
  split at h <;> simp [AcquireOutcome.ret] at h

theorem sysPetersonAcquire_spin {t : PTable} {lockId role : Int}
    (h : (sysPetersonAcquire t lockId role).1 = .spin) : (validLockArgs lockId role).isSome := by
  rcases sysPetersonAcquire_cases t lockId role with he | he | ⟨i, r, rfl, rfl, -, -⟩
  · rw [he] at h; cases h
  · rw [he] at h; cases h
  · simp

theorem sysPetersonRelease_fail {t : PTable} {lockId role : Int}
    (h : (sysPetersonRelease t lockId role).1 = -1) : (sysPetersonRelease t lockId role).2 = t := by
  rcases sysPetersonRelease_cases t lockId role with he | ⟨i, r, -, -, -, he⟩ <;>
    simp only [he] at h ⊢
  omega

theorem sysPetersonDestroy_fail {t : PTable} {lockId : Int}
    (h : (sysPetersonDestroy t lockId).1 = -1) : (sysPetersonDestroy t lockId).2 = t := by
  rcases sysPetersonDestroy_cases t lockId with he | ⟨i, -, -, he⟩ <;>
    simp only [he] at h ⊢
  omega

@[simp] theorem sysPetersonAcquire_active (t : PTable) (lockId role : Int)
    (j : Fin nPetersonLocks) :
    ((sysPetersonAcquire t lockId role).2 j).active = (t j).active := by
  rcases sysPetersonAcquire_cases t lockId role with he | he | ⟨i, r, -, -, -, he⟩ <;>
    rw [he]
  by_cases hj : j = i
  · subst hj; simp
  · simp [Function.update_noteq hj]

@[simp] theorem sysPetersonRelease_active (t : PTable) (lockId role : Int)
    (j : Fin nPetersonLocks) :
    ((sysPetersonRelease t lockId role).2 j).active = (t j).active := by
  rcases sysPetersonRelease_cases t lockId role with he | ⟨i, r, -, -, -, he⟩ <;>
    rw [he]
  by_cases hj : j = i
  · subst hj; simp
  · simp [Function.update_noteq hj]

theorem sysPetersonCreate_active {t : PTable} {j : Fin nPetersonLocks} (h : (t j).active = true) :
    ((sysPetersonCreate t).2 j).active = true := by
  rcases petersonAlloc_spec t with ⟨i, hi, -, he⟩ | ⟨-, he⟩ <;> simp only [sysPetersonCreate, he]
  · rw [Function.update_noteq (by rintro rfl; simp [hi] at h)]
    exact h
  · exact h

theorem sysPetersonCreate_inactive {t : PTable} {j : Fin nPetersonLocks}
    (h : (sysPetersonCreate t).1 = (j : Nat)) : (t j).active = false := by
  rcases petersonAlloc_spec t with ⟨i, hi, -, he⟩ | ⟨-, he⟩ <;>
    simp only [sysPetersonCreate, he] at h
  · rwa [← Fin.ext (Int.ofNat_inj.1 h)]
  · omega

theorem sysPetersonCreate_activates {t : PTable} {j : Fin nPetersonLocks}
    (h : (t j).active = false) (h' : ((sysPetersonCreate t).2 j).active = true) :
    (sysPetersonCreate t).1 = (j : Nat) := by
  rcases petersonAlloc_spec t with ⟨i, -, -, he⟩ | ⟨-, he⟩ <;>
    simp only [sysPetersonCreate, he] at h' ⊢
  · by_cases hj : j = i
    · rw [hj]
    · simp [Function.update_noteq hj, h] at h'
  · simp [h] at h'

theorem sysPetersonCreate_frame {t : PTable} {j : Fin nPetersonLocks}
    (h : (sysPetersonCreate t).1 ≠ (j : Nat)) : (sysPetersonCreate t).2 j = t j := by
  rcases petersonAlloc_spec t with ⟨i, -, -, he⟩ | ⟨-, he⟩ <;>
    simp only [sysPetersonCreate, he] at h ⊢
  rw [Function.update_noteq]
  rintro rfl
  exact h rfl

theorem sysPetersonCreate_fresh {t : PTable} {j : Fin nPetersonLocks}
    (h : (sysPetersonCreate t).1 = (j : Nat)) : (sysPetersonCreate t).2 j = PetersonLock.fresh := by
  rcases petersonAlloc_spec t with ⟨i, -, -, he⟩ | ⟨-, he⟩ <;>
    simp only [sysPetersonCreate, he] at h ⊢
  · rw [← Fin.ext (Int.ofNat_inj.1 h), Function.update_same]
  · omega

theorem sysPetersonCreate_ok {t : PTable} (h : ¬ (sysPetersonCreate t).1 < 0) :
    ∃ i : Fin nPetersonLocks, (sysPetersonCreate t).1 = ((i : Nat) : Int) ∧ (t i).active = false ∧
      (sysPetersonCreate t).2 = Function.update t i PetersonLock.fresh := by
  rcases petersonAlloc_spec t with ⟨i, hi, -, he⟩ | ⟨-, he⟩ <;>
    simp only [sysPetersonCreate, he] at h ⊢
  · exact ⟨i, rfl, hi, rfl⟩
  · omega

theorem sysPetersonDestroy_active {t : PTable} {lockId : Int} {j : Fin nPetersonLocks}
    (h : (t j).active = true) (h' : ((sysPetersonDestroy t lockId).2 j).active = false) :
    (sysPetersonDestroy t lockId).1 = 0 ∧ lockId = j := by
  rcases sysPetersonDestroy_cases t lockId with he | ⟨i, rfl, -, he⟩ <;> rw [he] at h' ⊢
  · simp [h] at h'
  · by_cases hj : j = i
    · subst hj; simp
    · simp [Function.update_noteq hj, h] at h'

theorem sysPetersonDestroy_inactive {t : PTable} {lockId : Int} {j : Fin nPetersonLocks}
    (h : (t j).active = false) : ((sysPetersonDestroy t lockId).2 j).active = false := by
  rcases sysPetersonDestroy_cases t lockId with he | ⟨i, -, -, he⟩ <;> rw [he]
  · exact h
  · by_cases hj : j = i
    · subst hj; simp [PetersonLock.unused]
    · simpa [Function.update_noteq hj] using h

theorem sysPetersonDestroy_self (t : PTable) (i : Fin nPetersonLocks) :
    ((sysPetersonDestroy t i).2 i).active = false := by
  rcases sysPetersonDestroy_cases t i with he | ⟨j, hj, -, he⟩ <;> rw [he]
  · by_contra ha
    simp_all [sysPetersonDestroy, validLockId_eq_some.2 rfl]
  · obtain rfl := Fin.ext (by exact_mod_cast hj)
    simp [PetersonLock.unused]

theorem sysPetersonDestroy_frame (t : PTable) (lockId : Int) (j : Fin nPetersonLocks) :
    (sysPetersonDestroy t lockId).2 j = t j ∨
      ((sysPetersonDestroy t lockId).2 j).active = false := by
  rcases sysPetersonDestroy_cases t lockId with he | ⟨i, -, -, he⟩ <;> rw [he]
  · exact .inl rfl
  · by_cases hj : j = i
    · subst hj; exact .inr (by simp [PetersonLock.unused])
    · exact .inl (Function.update_noteq hj _ _)

theorem sysPetersonDestroy_frame_ne {t : PTable} {lockId : Int} {j : Fin nPetersonLocks}
    (h : lockId ≠ (j : Nat)) : (sysPetersonDestroy t lockId).2 j = t j := by
  rcases sysPetersonDestroy_cases t lockId with he | ⟨i, rfl, -, he⟩ <;> rw [he]
  exact Function.update_noteq (by rintro rfl; exact h rfl) _ _

/-- Every inactive slot holds the values `peterson_init` and `peterson_free` write. -/
def InactiveClean (t : PTable) : Prop := ∀ i, (t i).active = false → t i = PetersonLock.unused

theorem InactiveClean.update {t : PTable} (ht : InactiveClean t) (i : Fin nPetersonLocks)
    {pl : PetersonLock} (h : pl.active = false → pl = PetersonLock.unused) :
    InactiveClean (Function.update t i pl) := by
  intro j hj
  by_cases hji : j = i
  · subst hji
    simp only [Function.update_same] at hj ⊢
    exact h hj
  · simp only [Function.update_noteq hji] at hj ⊢
    exact ht j hj

theorem InactiveClean.create {t : PTable} (ht : InactiveClean t) :
    InactiveClean (sysPetersonCreate t).2 := by
  rcases petersonAlloc_spec t with ⟨i, -, -, he⟩ | ⟨-, he⟩ <;> simp only [sysPetersonCreate, he]
  · exact ht.update i (by simp [PetersonLock.fresh])
  · exact ht

theorem InactiveClean.acquire {t : PTable} (ht : InactiveClean t) (lockId role : Int) :
    InactiveClean (sysPetersonAcquire t lockId role).2 := by
  rcases sysPetersonAcquire_cases t lockId role with he | he | ⟨i, r, -, -, ha, he⟩ <;> rw [he]
  iterate 2 exact ht
  exact ht.update i (by simp [ha])

theorem InactiveClean.release {t : PTable} (ht : InactiveClean t) (lockId role : Int) :
    InactiveClean (sysPetersonRelease t lockId role).2 := by
  rcases sysPetersonRelease_cases t lockId role with he | ⟨i, r, -, -, ha, he⟩ <;> rw [he]
  · exact ht
  · exact ht.update i (by simp [ha])

theorem InactiveClean.destroy {t : PTable} (ht : InactiveClean t) (lockId : Int) :
    InactiveClean (sysPetersonDestroy t lockId).2 := by
  rcases sysPetersonDestroy_cases t lockId with he | ⟨i, -, -, he⟩ <;> rw [he]
  · exact ht
  · exact ht.update i fun _ => rfl

/-- Under a schedule that picks `a` again after every time, a property that only the moves
picking `a` can break holds at such a move. -/
theorem exists_pick_of_stable {α : Type} {σ : Nat → α} {a : α} (hf : ∀ k, ∃ k' ≥ k, σ k' = a)
    {Q : Nat → Prop} {k : Nat} (hQ : ∀ j ≥ k, Q j → σ j ≠ a → Q (j + 1)) (hk : Q k) :
    ∃ j ≥ k, σ j = a ∧ Q j := by
  obtain ⟨k', hk', hr⟩ := hf k
  obtain ⟨d, rfl⟩ := Nat.exists_eq_add_of_le hk'
  clear hk'
  induction d generalizing k with
  | zero => exact ⟨k, le_rfl, hr, hk⟩
  | succ d ih =>
    by_cases hσ : σ k = a
    · exact ⟨k, le_rfl, hσ, hk⟩
    · obtain ⟨j, hj, h⟩ := ih (fun j hj => hQ j (by omega)) (hQ k le_rfl hk hσ)
        (by rwa [Nat.add_right_comm, Nat.add_assoc])
      exact ⟨j, by omega, h⟩

/-- Two processes in turn. -/
def alternate : Nat → Fin 2 := fun k => ⟨k % 2, Nat.mod_lt _ (by decide)⟩

theorem alternate_visits (r : Fin 2) (k : Nat) : ∃ k' ≥ k, alternate k' = r := by
  refine ⟨2 * k + r, by omega, ?_⟩
  simp only [alternate, Fin.ext_iff]
  omega

end PetersonTournament
