import Fos.Lib.Reach
import Fos.Lib.Region
import Fos.Types

/-! Spinlocks (`kern/conc/kspinlock.c`) and the interrupts of the one CPU (`kern/cpu/cpu.c`). What is left out of a lock is for
    debugging: its name and the call stack. -/

namespace Fos.Conc
open Lib

/-! ### The state -/

/-- `struct kspinlock`; a CPU is its index in `CPUS`, and none stands for the null pointer. -/
structure Kspinlock where
  locked : BitVec 32
  cpu : Option Nat

/-- `sizeof(struct kspinlock)` -/
def kspinlockSize : Nat := 4 + 64 + 4 + 4 * 10

/-- The memory of a lock at the address `va` -/
def kspinlockAt (va : Nat) : Region := ⟨va, kspinlockSize⟩

/-- Where the locks are in memory. They do not overlap. -/
structure Placement (L : Type) where
  addr : L → Nat
  fits : ∀ lk, (kspinlockAt (addr lk)).stop ≤ 4294967296
  apart : ∀ lk lk', lk ≠ lk' → (kspinlockAt (addr lk)).Apart (kspinlockAt (addr lk'))

/-- The CPU, the locks and the local variable of `holding_kspinlock` -/
structure Machine (L : Type) where
  /-- `FL_IF` of `eflags` -/
  interrupts : Bool
  ncli : Int
  /-- Whether `intena` is not 0. -/
  intena : Bool
  locks : L → Kspinlock
  r : Bool

/-- `mycpu()` -/
def mycpu : Option Nat := some 0

/-! ### The functions -/

/-- What the functions do, one after the other. -/
inductive Op (L : Type) where
  | pushcli
  | popcli
  /-- `r = lock->locked && lock->cpu == mycpu()` -/
  | test (lk : L)
  /-- The function returns, and there is a panic if it returns `value`. -/
  | panicIf (value : Bool)
  /-- `while(xchg(&lk->locked, 1) != 0) ;` -/
  | xchg (lk : L)
  /-- `lk->cpu = cpu` -/
  | setCpu (lk : L) (cpu : Option Nat)
  /-- `lk->locked = 0` -/
  | unlock (lk : L)

/-- `holding_kspinlock(lock)` -/
def holdingKspinlock {L : Type} (lk : L) : List (Op L) := [.pushcli, .test lk, .popcli]

/-- `get_cpu_proc()` -/
def getCpuProc (L : Type) : List (Op L) := [.pushcli, .popcli]

/-- `getcallerpcs(v, pcs)` -/
def getcallerpcs (L : Type) : List (Op L) := getCpuProc L

/-- `acquire_kspinlock(lk)` -/
def acquireKspinlock {L : Type} (lk : L) : List (Op L) :=
  holdingKspinlock lk ++ [.panicIf true, .pushcli] ++ getCpuProc L ++ [.xchg lk, .setCpu lk mycpu] ++ getcallerpcs L

/-- `release_kspinlock(lk)` -/
def releaseKspinlock {L : Type} (lk : L) : List (Op L) :=
  holdingKspinlock lk ++ [.panicIf false, .setCpu lk none, .unlock lk] ++ getCpuProc L ++ [.popcli]

variable {L : Type}

namespace Machine

/-- `pushcli()` -/
def pushcli (s : Machine L) : Machine L :=
  { s with
    interrupts := false
    intena := if s.ncli = 0 then s.interrupts else s.intena
    ncli := int32 (s.ncli + 1) }

/-- `popcli()`; `none` is a panic. -/
def popcli (s : Machine L) : Option (Machine L) :=
  if s.interrupts then none
  else
    let ncli := int32 (s.ncli - 1)
    if ncli < 0 then none
    else some { s with ncli := ncli, interrupts := if ncli = 0 ∧ s.intena then true else s.interrupts }

def setLock [DecidableEq L] (s : Machine L) (lk : L) (lock : Kspinlock) : Machine L :=
  { s with locks := Function.update s.locks lk lock }

theorem setLock_self [DecidableEq L] (s : Machine L) (lk : L) (lock : Kspinlock) : (s.setLock lk lock).locks lk = lock :=
  Function.update_self ..

theorem setLock_of_ne [DecidableEq L] (s : Machine L) (lock : Kspinlock) {lk lk' : L} (hlk : lk' ≠ lk) :
    (s.setLock lk lock).locks lk' = s.locks lk' := Function.update_of_ne hlk ..

/-- What an operation does; `none` is a panic, or the loop that does not end: no other CPU opens the lock. -/
def step [DecidableEq L] (s : Machine L) : Op L → Option (Machine L)
  | .pushcli => some s.pushcli
  | .popcli => s.popcli
  | .test lk => some { s with r := (s.locks lk).locked ≠ 0 ∧ (s.locks lk).cpu = mycpu }
  | .panicIf value => if s.r = value then none else some s
  | .xchg lk => if (s.locks lk).locked ≠ 0 then none else some (s.setLock lk { s.locks lk with locked := 1 })
  | .setCpu lk cpu => some (s.setLock lk { s.locks lk with cpu := cpu })
  | .unlock lk => some (s.setLock lk { s.locks lk with locked := 0 })

/-- No interrupt comes while a lock is held. -/
def Masked (s : Machine L) : Prop := (∃ lk, (s.locks lk).locked ≠ 0) → s.interrupts = false

end Machine

/-! ### The calls -/

inductive Call (L : Type) where
  | acquire (lk : L)
  | release (lk : L)

def Call.ops : Call L → List (Op L)
  | .acquire lk => acquireKspinlock lk
  | .release lk => releaseKspinlock lk

/-- The locks held after a call: a lock that is acquired is free, and one that is released is held. -/
def Call.next [DecidableEq L] (held : Finset L) : Call L → Option (Finset L)
  | .acquire lk => if lk ∈ held then none else some (insert lk held)
  | .release lk => if lk ∈ held then some (held.erase lk) else none

/-- `ncli` does not wrap: memory does not have room for that many locks. -/
theorem Placement.card_lt (place : Placement L) (held : Finset L) : held.card < 2147483646 := by
  have hsum : ∑ lk ∈ held, (kspinlockAt (place.addr lk)).size ≤ 4294967296 - 0 :=
    sum_size_le (fun lk _ => ⟨Nat.zero_le _, place.fits lk⟩) fun lk _ lk' _ => place.apart lk lk'
  have hconst : ∀ lk ∈ held, (kspinlockAt (place.addr lk)).size = kspinlockSize := fun _ _ => rfl
  rw [Finset.sum_const_nat hconst, kspinlockSize] at hsum
  omega

/-! ### The invariant -/

/-- `pushcli` is nested `n` times over the flag `f`, the locks `held` are not free, and this CPU is in those of `mine`. -/
structure Holds (f : Bool) (n : Nat) (held mine : Finset L) (r : Bool) (s : Machine L) : Prop where
  ncli : s.ncli = n
  first : n = 0 → s.interrupts = f
  nested : 0 < n → s.interrupts = false ∧ s.intena = f
  locked : ∀ lk, (s.locks lk).locked ≠ 0 ↔ lk ∈ held
  cpu : ∀ lk ∈ mine, (s.locks lk).cpu = mycpu
  masks : held.Nonempty → 0 < n
  r : s.r = r

namespace Holds

variable {f r : Bool} {n : Nat} {held mine : Finset L} {s : Machine L} {lk : L}

theorem masked (h : Holds f n held mine r s) : s.Masked := fun ⟨lk, hlk⟩ =>
  (h.nested (h.masks ⟨lk, (h.locked lk).mp hlk⟩)).1

theorem pushcli (h : Holds f n held mine r s) (hn : n < 2147483647) : Holds f (n + 1) held mine r s.pushcli where
  ncli := by
    rw [Machine.pushcli, h.ncli, int32_eq (by omega) (by omega)]
    rfl
  first := fun hzero => absurd hzero (Nat.succ_ne_zero n)
  nested := by
    refine fun _ => ⟨rfl, ?_⟩
    rw [Machine.pushcli, h.ncli]
    rcases Nat.eq_zero_or_pos n with hzero | hpos
    · rw [if_pos (by omega), h.first hzero]
    · rw [if_neg (by omega), (h.nested hpos).2]
  locked := h.locked
  cpu := h.cpu
  masks := fun _ => Nat.succ_pos n
  r := h.r

theorem popcli (h : Holds f (n + 1) held mine r s) (hn : n < 2147483647) (hmasks : held.Nonempty → 0 < n) :
    ∃ t, s.popcli = some t ∧ Holds f n held mine r t := by
  obtain ⟨hoff, hintena⟩ := h.nested (Nat.succ_pos n)
  have hncli : int32 (s.ncli - 1) = n := by
    rw [h.ncli, int32_eq (by omega) (by omega)]
    omega
  unfold Machine.popcli
  rw [if_neg (by rw [hoff]; exact Bool.false_ne_true)]
  dsimp only
  rw [hncli, if_neg (by omega), hoff]
  refine ⟨_, rfl, rfl, fun hzero => ?_, fun hpos => ⟨if_neg fun hz => ?_, hintena⟩, h.locked, h.cpu, hmasks, h.r⟩
  · subst hzero
    rw [hintena]
    cases f <;> rfl
  · have := hz.1
    omega

variable [DecidableEq L]

theorem test (h : Holds f n held held r s) (lk : L) :
    Holds f n held held (lk ∈ held) { s with r := (s.locks lk).locked ≠ 0 ∧ (s.locks lk).cpu = mycpu } :=
  { h with
    r := decide_eq_decide.mpr
      ⟨fun hlk => (h.locked lk).mp hlk.1, fun hlk => ⟨(h.locked lk).mpr hlk, h.cpu lk hlk⟩⟩ }

/-- A lock is changed, and none but this lock comes to `held` or to `mine`. -/
theorem setLock (h : Holds f n held mine r s) {held' mine' : Finset L} {lock : Kspinlock}
    (hlocked : lock.locked ≠ 0 ↔ lk ∈ held') (hcpu : lk ∈ mine' → lock.cpu = mycpu)
    (hheld : ∀ lk', lk' ≠ lk → (lk' ∈ held' ↔ lk' ∈ held)) (hmine : ∀ lk', lk' ≠ lk → lk' ∈ mine' → lk' ∈ mine)
    (hmasks : held'.Nonempty → 0 < n) : Holds f n held' mine' r (s.setLock lk lock) where
  ncli := h.ncli
  first := h.first
  nested := h.nested
  locked := fun lk' => by
    by_cases hlk : lk' = lk
    · subst hlk
      rw [Machine.setLock_self]
      exact hlocked
    · rw [Machine.setLock_of_ne _ _ hlk, hheld lk' hlk]
      exact h.locked lk'
  cpu := fun lk' hin => by
    by_cases hlk : lk' = lk
    · subst hlk
      rw [Machine.setLock_self]
      exact hcpu hin
    · rw [Machine.setLock_of_ne _ _ hlk]
      exact h.cpu lk' (hmine lk' hlk hin)
  masks := hmasks
  r := h.r

/-- A free lock is taken, and its CPU is not set yet. -/
theorem xchg (h : Holds f n held held r s) (hn : 0 < n) (hlk : lk ∉ held) :
    Holds f n (insert lk held) held r (s.setLock lk { s.locks lk with locked := 1 }) := by
  refine h.setLock ⟨fun _ => Finset.mem_insert_self .., fun _ => ?_⟩ (fun hin => absurd hin hlk) (fun lk' hne => ?_)
    (fun _ _ hin => hin) fun _ => hn
  · exact (by decide : (1 : BitVec 32) ≠ 0)
  · exact ⟨fun hin => (Finset.mem_insert.mp hin).resolve_left hne, Finset.mem_insert_of_mem⟩

theorem setCpu (h : Holds f n (insert lk held) held r s) :
    Holds f n (insert lk held) (insert lk held) r (s.setLock lk { s.locks lk with cpu := mycpu }) :=
  h.setLock (h.locked lk) (fun _ => rfl) (fun _ _ => Iff.rfl)
    (fun _ hne hin => (Finset.mem_insert.mp hin).resolve_left hne) h.masks

/-- A lock that is held has no CPU any more. -/
theorem clearCpu (h : Holds f n held held r s) (lk : L) :
    Holds f n held (held.erase lk) r (s.setLock lk { s.locks lk with cpu := none }) :=
  h.setLock (h.locked lk) (fun hin => absurd hin (Finset.notMem_erase lk held)) (fun _ _ => Iff.rfl)
    (fun _ _ hin => Finset.mem_of_mem_erase hin) h.masks

theorem unlock (h : Holds f n held (held.erase lk) r s) :
    Holds f n (held.erase lk) (held.erase lk) r (s.setLock lk { s.locks lk with locked := 0 }) := by
  have hout : lk ∉ held.erase lk := Finset.notMem_erase lk held
  refine h.setLock ⟨fun hne => absurd rfl hne, fun hin => absurd hin hout⟩ (fun hin => absurd hin hout) (fun lk' hne => ?_)
    (fun _ _ hin => hin) fun hne => h.masks (hne.mono (Finset.erase_subset lk held))
  exact ⟨Finset.mem_of_mem_erase, Finset.mem_erase_of_ne_of_mem hne⟩

end Holds

/-! ### What a call does -/

section
variable [DecidableEq L] {f r : Bool} {n : Nat} {held mine : Finset L} {s : Machine L} {lk : L}

theorem getCpuProc_spec (h : Holds f n held mine r s) (hn : n < 2147483647) :
    Throughout Machine.step Machine.Masked (Holds f n held mine r) (getCpuProc L) s := by
  have hpush := h.pushcli hn
  obtain ⟨t, ht, hpop⟩ := hpush.popcli hn h.masks
  exact ⟨h.masked, _, rfl, hpush.masked, t, ht, hpop.masked, hpop⟩

theorem holdingKspinlock_spec (h : Holds f n held held r s) (hn : n < 2147483647) (lk : L) :
    Throughout Machine.step Machine.Masked (Holds f n held held (lk ∈ held)) (holdingKspinlock lk) s := by
  have hpush := h.pushcli hn
  have htest := hpush.test lk
  obtain ⟨t, ht, hpop⟩ := htest.popcli hn h.masks
  exact ⟨h.masked, _, rfl, hpush.masked, _, rfl, htest.masked, t, ht, hpop.masked, hpop⟩

/-- Between two calls, with the locks `held` -/
def Between (f : Bool) (held : Finset L) (s : Machine L) : Prop := ∃ r, Holds f held.card held held r s

theorem acquireKspinlock_spec (place : Placement L) (h : Between f held s) (hlk : lk ∉ held) :
    Throughout Machine.step Machine.Masked (Between f (insert lk held)) (acquireKspinlock lk) s := by
  obtain ⟨r, h⟩ := h
  have hsmall := place.card_lt held
  have hcard := Finset.card_insert_of_notMem hlk
  have hpush : Throughout Machine.step Machine.Masked (Holds f (insert lk held).card held held (lk ∈ held))
      (holdingKspinlock lk ++ [.panicIf true, .pushcli]) s := by
    refine (holdingKspinlock_spec h (by omega) lk).append fun t ht => ?_
    have hno : t.r ≠ true := fun hr => hlk (of_decide_eq_true (ht.r.symm.trans hr))
    have hpush := ht.pushcli (by omega)
    rw [← hcard] at hpush
    exact ⟨ht.masked, t, if_neg hno, ht.masked, _, rfl, hpush.masked, hpush⟩
  have hproc := hpush.append fun t ht => getCpuProc_spec ht (by omega)
  have hlock : Throughout Machine.step Machine.Masked
      (Holds f (insert lk held).card (insert lk held) (insert lk held) (lk ∈ held))
      (holdingKspinlock lk ++ [.panicIf true, .pushcli] ++ getCpuProc L ++ [.xchg lk, .setCpu lk mycpu]) s := by
    refine hproc.append fun t ht => ?_
    have hfree : ¬(t.locks lk).locked ≠ 0 := fun hne => hlk ((ht.locked lk).mp hne)
    have htaken := ht.xchg (by omega) hlk
    have hset := htaken.setCpu
    exact ⟨ht.masked, _, if_neg hfree, htaken.masked, _, rfl, hset.masked, hset⟩
  exact (hlock.append fun t ht => getCpuProc_spec ht (by omega)).imp fun t ht => ⟨_, ht⟩

theorem releaseKspinlock_spec (place : Placement L) (h : Between f held s) (hlk : lk ∈ held) :
    Throughout Machine.step Machine.Masked (Between f (held.erase lk)) (releaseKspinlock lk) s := by
  obtain ⟨r, h⟩ := h
  have hsmall := place.card_lt held
  have hcard := Finset.card_erase_add_one hlk
  have hlock : Throughout Machine.step Machine.Masked (Holds f held.card (held.erase lk) (held.erase lk) (lk ∈ held))
      (holdingKspinlock lk ++ [.panicIf false, .setCpu lk none, .unlock lk]) s := by
    refine (holdingKspinlock_spec h (by omega) lk).append fun t ht => ?_
    have hyes : t.r ≠ false := fun hr => of_decide_eq_false (ht.r.symm.trans hr) hlk
    have hclear := ht.clearCpu lk
    have hopen := hclear.unlock
    exact ⟨ht.masked, t, if_neg hyes, ht.masked, _, rfl, hclear.masked, _, rfl, hopen.masked, hopen⟩
  have hproc := hlock.append fun t ht => getCpuProc_spec ht (by omega)
  refine hproc.append fun t ht => ?_
  rw [← hcard] at ht
  obtain ⟨u, hu, hpop⟩ := ht.popcli (by omega) Finset.card_pos.mpr
  exact ⟨ht.masked, u, hu, hpop.masked, _, hpop⟩

/-! ### Any calls -/

theorem Call.spec (place : Placement L) {c : Call L} {held' : Finset L} (h : Between f held s) (hc : c.next held = some held') :
    Throughout Machine.step Machine.Masked (Between f held') c.ops s := by
  cases c with
  | acquire lk =>
    rw [Call.next] at hc
    split at hc
    · exact nomatch hc
    · next hlk =>
      obtain rfl := Option.some.inj hc
      exact acquireKspinlock_spec place h hlk
  | release lk =>
    rw [Call.next] at hc
    split at hc
    · next hlk =>
      obtain rfl := Option.some.inj hc
      exact releaseKspinlock_spec place h hlk
    · exact nomatch hc

theorem calls_spec (place : Placement L) {calls : List (Call L)} (hncli : s.ncli = 0) (hfree : ∀ lk, (s.locks lk).locked = 0)
    (hcalls : exec Call.next ∅ calls = some held) :
    Throughout Machine.step Machine.Masked (Between s.interrupts held) (calls.flatMap Call.ops) s := by
  refine Throughout.flatMap (fun held s ⟨_, h⟩ => h.masked) (fun held c held' s h hc => Call.spec place h hc) ⟨s.r, ?_⟩ hcalls
  exact
    { ncli := hncli
      first := fun _ => rfl
      nested := fun hpos => absurd hpos (Nat.lt_irrefl 0)
      locked := fun lk => ⟨fun hne => absurd (hfree lk) hne, fun hin => absurd hin (Finset.notMem_empty lk)⟩
      cpu := fun lk hin => absurd hin (Finset.notMem_empty lk)
      masks := fun hne => absurd hne Finset.not_nonempty_empty
      r := rfl }

/-- The calls of any order, each with a lock that is free or one that is held, go through; then `ncli` counts the locks that
    are held, and the flag is the old one if these are none. No interrupt comes while a lock is held. -/
theorem kspinlocks_mask (place : Placement L) {calls : List (Call L)} (hncli : s.ncli = 0)
    (hfree : ∀ lk, (s.locks lk).locked = 0) (hcalls : exec Call.next ∅ calls = some held) :
    (∃ t, exec Machine.step s (calls.flatMap Call.ops) = some t ∧ (∀ lk, (t.locks lk).locked ≠ 0 ↔ lk ∈ held) ∧
      t.ncli = held.card ∧ (held = ∅ → t.interrupts = s.interrupts)) ∧
    ∀ ops u, ops <+: calls.flatMap Call.ops → exec Machine.step s ops = some u →
      (∃ lk, (u.locks lk).locked ≠ 0) → u.interrupts = false := by
  have hrun := calls_spec place hncli hfree hcalls
  obtain ⟨t, ht, r, h⟩ := hrun.exec_eq
  refine ⟨⟨t, ht, h.locked, h.ncli, fun hnone => h.first ?_⟩, fun ops u hops hu => hrun.of_prefix hops hu⟩
  rw [hnone, Finset.card_empty]

end

/-- Two locks, one behind the other -/
def twoLocks : Placement Bool where
  addr lk := if lk then kspinlockSize else 0
  fits := by decide
  apart := by decide

/-- Two free locks and interrupts that are enabled -/
def twoFree : Machine Bool := ⟨true, 0, false, fun _ => ⟨0, none⟩, false⟩

/-- The lock that was acquired first is released first. -/
def crossed : List (Call Bool) := [.acquire false, .acquire true, .release false, .release true]

theorem kspinlocks_mask_crossed :
    (∃ t, exec Machine.step twoFree (crossed.flatMap Call.ops) = some t ∧ t.ncli = 0 ∧ t.interrupts = true) ∧
    ∀ ops u, ops <+: crossed.flatMap Call.ops → exec Machine.step twoFree ops = some u →
      (∃ lk, (u.locks lk).locked ≠ 0) → u.interrupts = false := by
  have hncli : twoFree.ncli = 0 := rfl
  have hcalls : exec Call.next ∅ crossed = some ∅ := by decide
  obtain ⟨⟨t, ht, -, hdepth, hflag⟩, hmasked⟩ := kspinlocks_mask twoLocks hncli (fun _ => rfl) hcalls
  exact ⟨⟨t, ht, hdepth, hflag rfl⟩, hmasked⟩

end Fos.Conc
