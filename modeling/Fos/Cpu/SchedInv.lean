import Fos.Cpu.Sched
import Mathlib.Data.List.Count
import Mathlib.Data.Fintype.Card

/-! Where the environments are: every operation of `Fos.Cpu.Sched` moves them between the queues and the CPU so that
    each is in exactly the place that its status names. Inside an operation at most one environment is in no place
    (it is in hand). -/

namespace Fos.Cpu
open Lib

/-! ### Ids -/

theorem nearestPow2Ceil_eq {n : Nat} (hn : n ≤ 1048576) :
    ∃ k, k ≤ 20 ∧ nearestPow2Ceil n = 2 ^ k ∧ n ≤ 2 ^ k ∧ k < log2Ceil n ∧ log2Ceil n ≤ 21 := by
  unfold nearestPow2Ceil log2Ceil
  split
  · exact ⟨0, by omega, rfl, by omega, by omega, by omega⟩
  · have hlt : n - 1 < 2 ^ ((n - 1).log2 + 1) := Nat.lt_log2_self
    have hle : (n - 1).log2 < 20 := (Nat.log2_lt (by omega)).mpr (by omega)
    exact ⟨(n - 1).log2 + 1, by omega, by rw [Nat.pow_succ, Nat.mul_comm], by omega, by omega, by omega⟩

/-- The index part of an id that has one of the generations and the index `e`. -/
theorem and_envMask {n : Nat} (hn : n ≤ 1048576) (e : Fin n) {g x : BitVec 32}
    (hg : g = x &&& ~~~envMask n ∨ g = 1#32 <<< log2Ceil n) :
    (g ||| BitVec.ofNat 32 e) &&& envMask n = BitVec.ofNat 32 e := by
  obtain ⟨k, hk, hpow, hle, hlog, hlog'⟩ := nearestPow2Ceil_eq hn
  have hlt : 2 ^ k ≤ 2 ^ 20 := Nat.pow_le_pow_right (by omega) hk
  have hmask : (envMask n).toNat = 2 ^ k - 1 := by
    have hpos : 0 < 2 ^ k := Nat.pow_pos (by omega)
    simp only [envMask, hpow, BitVec.toNat_sub, BitVec.toNat_ofNat, BitVec.ofNat_eq_ofNat]
    omega
  have hindex : BitVec.ofNat 32 e &&& envMask n = BitVec.ofNat 32 e := by
    refine BitVec.eq_of_toNat_eq ?_
    rw [BitVec.toNat_and, hmask, Nat.and_two_pow_sub_one_eq_mod, BitVec.toNat_ofNat]
    exact Nat.mod_eq_of_lt (by omega)
  have hgen : g &&& envMask n = 0#32 := by
    rcases hg with rfl | rfl
    · rw [BitVec.and_assoc, BitVec.and_comm (~~~envMask n), BitVec.and_not_self]
      exact BitVec.and_zero
    · have hsmall : 2 ^ log2Ceil n ≤ 2 ^ 21 := Nat.pow_le_pow_right (by omega) hlog'
      have hnat : (1#32 <<< log2Ceil n).toNat = 2 ^ log2Ceil n := by
        rw [BitVec.toNat_shiftLeft, Nat.shiftLeft_eq, BitVec.toNat_ofNat]
        exact (Nat.mod_eq_of_lt (by omega)).trans (Nat.one_mul _)
      refine BitVec.eq_of_toNat_eq ?_
      rw [BitVec.toNat_and, hmask, Nat.and_two_pow_sub_one_eq_mod, hnat]
      exact Nat.mod_eq_zero_of_dvd (Nat.pow_dvd_pow 2 hlog.le)
  rw [BitVec.and_or_distrib_right, hgen, hindex, BitVec.zero_or]

/-- The id of the environment `e`. -/
def IdOf {n : Nat} (e : Fin n) (id : BitVec 32) : Prop := id ≠ 0 ∧ id &&& envMask n = BitVec.ofNat 32 e

theorem IdOf.inj {n : Nat} (hn : n ≤ 1048576) {e f : Fin n} {id : BitVec 32} (he : IdOf e id) (hf : IdOf f id) :
    e = f := by
  have h := congrArg BitVec.toNat (he.2.symm.trans hf.2)
  simp only [BitVec.toNat_ofNat] at h
  omega

theorem idOf_nextEnvId {n : Nat} (hn : n ≤ 1048576) (e : Fin n) (id : BitVec 32) : IdOf e (nextEnvId e id) := by
  refine ⟨fun hzero => ?_, and_envMask hn e (x := id + 1#32 <<< log2Ceil n) ?_⟩
  · have hgen := (BitVec.or_eq_zero_iff.mp hzero).1
    split at hgen
    case isTrue =>
      obtain ⟨k, -, -, -, -, hlog⟩ := nearestPow2Ceil_eq hn
      have hnat := congrArg BitVec.toNat hgen
      have hsmall : 2 ^ log2Ceil n ≤ 2 ^ 21 := Nat.pow_le_pow_right (by omega) hlog
      have hpos : 0 < 2 ^ log2Ceil n := Nat.pow_pos (by omega)
      rw [BitVec.toNat_shiftLeft, Nat.shiftLeft_eq, BitVec.toNat_ofNat, BitVec.toNat_ofNat, Nat.zero_mod,
        Nat.mod_eq_of_lt (by omega)] at hnat
      omega
    case isFalse hpos =>
      rw [hgen] at hpos
      exact hpos (by decide)
  · split
    case isTrue => exact .inr rfl
    case isFalse => exact .inl rfl

/-- A place where an environment can be. -/
inductive Place (C : Type) where
  | queue (q : Queue C)
  | cpu
  deriving DecidableEq, Repr

namespace Sched

variable {n : Nat} {C : Type}

/-- The fields of the environment name the place. -/
def Names (s : Sched n C) (e : Fin n) : Place C → Prop
  | .queue .free => (s.envs e).envStatus = .free
  | .queue .new => (s.envs e).envStatus = .new
  | .queue .exit => (s.envs e).envStatus = .exit
  | .queue (.ready i) => (s.envs e).envStatus = .ready ∧ (s.envs e).priority = i
  | .queue (.channel c) => (s.envs e).envStatus = .blocked ∧ (s.envs e).channel = some c
  | .cpu => (s.envs e).envStatus = .running

/-- An environment names one place at most. -/
theorem Names.unique {s : Sched n C} {e : Fin n} {p q : Place C} (hp : s.Names e p) (hq : s.Names e q) : p = q := by
  rcases p with (_ | _ | _ | i | c) | _ <;> rcases q with (_ | _ | _ | j | d) | _ <;> simp_all [Names]

/-- The queues hold the lists `L`, and every environment but the one in hand is in the place that it names. -/
structure Queued (s : Sched n C) (L : Queue C → List (Fin n)) (hand : Option (Fin n)) : Prop where
  spells : s.queues.Spells L
  mem : ∀ e, hand ≠ some e → ∀ q, e ∈ L q ↔ s.Names e (.queue q)
  placed : ∀ e, hand ≠ some e → ∃ p, s.Names e p
  not_mem : ∀ e, hand = some e → ∀ q, e ∉ L q
  id : ∀ e, (s.envs e).envStatus ≠ .free → IdOf e (s.envs e).envId
  priority : ∀ e, (s.envs e).envStatus ≠ .exit → 0 ≤ (s.envs e).priority ∧ (s.envs e).priority < s.numOfReadyQueues
  round_robin : s.schedulerMethod = .RR → s.numOfReadyQueues = 1

/-- The CPU and the environments on it are the same, and so are the environments in use. -/
structure SameCpu (s t : Sched n C) : Prop where
  proc : t.proc = s.proc
  schedulerStatus : t.schedulerStatus = s.schedulerStatus
  running : ∀ e, (t.envs e).envStatus = .running ↔ (s.envs e).envStatus = .running
  free : ∀ e, (t.envs e).envStatus = .free ↔ (s.envs e).envStatus = .free

theorem SameCpu.refl (s : Sched n C) : SameCpu s s := ⟨rfl, rfl, fun _ => Iff.rfl, fun _ => Iff.rfl⟩

theorem SameCpu.trans {s t u : Sched n C} (h : SameCpu s t) (h' : SameCpu t u) : SameCpu s u where
  proc := h'.proc.trans h.proc
  schedulerStatus := h'.schedulerStatus.trans h.schedulerStatus
  running := fun e => (h'.running e).trans (h.running e)
  free := fun e => (h'.free e).trans (h.free e)

variable {s t : Sched n C} {L : Queue C → List (Fin n)} {hand : Option (Fin n)} {e : Fin n} {q : Queue C}

@[simp] theorem envs_modify_self (f : Env C → Env C) : (s.modify e f).envs e = f (s.envs e) := by
  simp [modify]

theorem envs_modify_of_ne {x : Fin n} (f : Env C → Env C) (h : x ≠ e) : (s.modify e f).envs x = s.envs x := by
  simp [modify, h]

theorem names_modify_of_ne {x : Fin n} (f : Env C → Env C) (h : x ≠ e) (p : Place C) :
    (s.modify e f).Names x p ↔ s.Names x p := by
  rcases p with (_ | _ | _ | i | c) | _ <;> simp [Names, envs_modify_of_ne f h]

/-- Writing fields of one environment that is neither on the CPU nor free, before and after. -/
theorem SameCpu.modify {f : Env C → Env C} (hr : (f (s.envs e)).envStatus = .running ↔ (s.envs e).envStatus = .running)
    (hf : (f (s.envs e)).envStatus = .free ↔ (s.envs e).envStatus = .free) : SameCpu s (s.modify e f) := by
  refine ⟨rfl, rfl, fun x => ?_, fun x => ?_⟩
  all_goals
    by_cases hx : x = e
    · subst hx
      simpa using by assumption
    · rw [envs_modify_of_ne f hx]

theorem SameCpu.touch (f : Env C → Env C) (h : ∀ x, (f x).envStatus = x.envStatus) : SameCpu s (s.modify e f) :=
  SameCpu.modify (by rw [h]) (by rw [h])

/-! ### Taking an environment in hand and putting it down -/

/-- The environment in hand may be given any fields. -/
theorem Queued.write (h : Queued s L (some e)) {f : Env C → Env C}
    (hid : (f (s.envs e)).envStatus ≠ .free → IdOf e (f (s.envs e)).envId)
    (hp : (f (s.envs e)).envStatus ≠ .exit → 0 ≤ (f (s.envs e)).priority ∧ (f (s.envs e)).priority < s.numOfReadyQueues) :
    Queued (s.modify e f) L (some e) where
  spells := h.spells
  mem := fun x hx r => by
    rw [names_modify_of_ne f (fun hxe => hx (by rw [hxe]))]
    exact h.mem x hx r
  placed := fun x hx => by
    obtain ⟨p, hp⟩ := h.placed x hx
    exact ⟨p, (names_modify_of_ne f (fun hxe => hx (by rw [hxe])) p).mpr hp⟩
  not_mem := h.not_mem
  id := fun x => by
    by_cases hx : x = e
    · subst hx
      simpa using hid
    · rw [envs_modify_of_ne f hx]
      exact h.id x
  priority := fun x => by
    by_cases hx : x = e
    · subst hx
      rw [envs_modify_self]
      exact hp
    · rw [envs_modify_of_ne f hx]
      exact h.priority x
  round_robin := h.round_robin

/-- An environment on the CPU is in no queue. -/
theorem Queued.pick (h : Queued s L none) (he : (s.envs e).envStatus = .running) : Queued s L (some e) where
  spells := h.spells
  mem := fun x _ => h.mem x nofun
  placed := fun x _ => h.placed x nofun
  not_mem := by
    rintro x ⟨⟩ q hmem
    have hn := (h.mem e nofun q).mp hmem
    cases hn.unique (show s.Names e .cpu from he)
  id := h.id
  priority := h.priority
  round_robin := h.round_robin

theorem Queued.drop (h : Queued s L (some e)) (he : (s.envs e).envStatus = .running) : Queued s L none where
  spells := h.spells
  mem := fun x _ q => by
    by_cases hx : x = e
    · subst hx
      refine ⟨fun hmem => absurd hmem (h.not_mem x rfl q), fun hn => ?_⟩
      cases hn.unique (show s.Names x .cpu from he)
    · exact h.mem x (fun he => hx (Option.some.inj he).symm) q
  placed := fun x _ => by
    by_cases hx : x = e
    · exact ⟨.cpu, hx ▸ he⟩
    · exact h.placed x fun he => hx (Option.some.inj he).symm
  not_mem := nofun
  id := h.id
  priority := h.priority
  round_robin := h.round_robin

/-- Writing fields that the place of the environment does not depend on. -/
theorem Queued.touch (h : Queued s L hand) {f : Env C → Env C} (hs : (f (s.envs e)).envStatus = (s.envs e).envStatus)
    (hi : (f (s.envs e)).envId = (s.envs e).envId)
    (hp : (s.envs e).envStatus = .ready → (f (s.envs e)).priority = (s.envs e).priority)
    (hc : (s.envs e).envStatus = .blocked → (f (s.envs e)).channel = (s.envs e).channel)
    (hrange : (s.envs e).envStatus ≠ .exit → 0 ≤ (f (s.envs e)).priority ∧ (f (s.envs e)).priority < s.numOfReadyQueues) :
    Queued (s.modify e f) L hand := by
  have hnames : ∀ x p, (s.modify e f).Names x p ↔ s.Names x p := by
    intro x p
    by_cases hx : x = e
    · subst hx
      rcases p with (_ | _ | _ | i | c) | _ <;> simp only [Names, envs_modify_self, hs]
      · exact and_congr_right fun hr => by rw [hp hr]
      · exact and_congr_right fun hb => by rw [hc hb]
    · exact names_modify_of_ne f hx p
  refine ⟨h.spells, fun x hx q => (h.mem x hx q).trans (hnames x _).symm, fun x hx => ?_, h.not_mem, fun x => ?_,
    fun x => ?_, h.round_robin⟩
  · obtain ⟨p, hp⟩ := h.placed x hx
    exact ⟨p, (hnames x p).mpr hp⟩
  · by_cases hx : x = e
    · subst hx
      rw [envs_modify_self, hs, hi]
      exact h.id x
    · rw [envs_modify_of_ne f hx]
      exact h.id x
  · by_cases hx : x = e
    · subst hx
      rw [envs_modify_self, hs]
      exact hrange
    · rw [envs_modify_of_ne f hx]
      exact h.priority x

variable [DecidableEq C]

/-- An environment is taken out of its queue. -/
theorem Queued.take (h : Queued s L none) (he : e ∈ L q) :
    Queued (s.removeFromQueue q e) (Function.update L q ((L q).erase e)) (some e) where
  spells := h.spells.remove he
  mem := fun x hx r => by
    have hne : x ≠ e := fun hxe => hx (by rw [hxe])
    refine Iff.trans ?_ (h.mem x nofun r)
    by_cases hr : r = q
    · subst hr
      rw [Function.update_self, List.mem_erase_of_ne hne]
    · rw [Function.update_of_ne hr]
  placed := fun x _ => h.placed x nofun
  not_mem := by
    rintro x ⟨⟩ r hr
    by_cases hrq : r = q
    · subst hrq
      rw [Function.update_self, (h.spells.nodup r).mem_erase_iff] at hr
      exact hr.1 rfl
    · rw [Function.update_of_ne hrq] at hr
      exact hrq (h.spells.disjoint _ _ _ hr he)
  id := h.id
  priority := h.priority
  round_robin := h.round_robin

/-- The environment in hand is put into the queue that it names. -/
theorem Queued.put (h : Queued s L (some e)) (hq : s.Names e (.queue q)) :
    Queued (s.enqueue q e) (Function.update L q (e :: L q)) none where
  spells := h.spells.insertHead (h.not_mem e rfl)
  mem := fun x _ r => by
    show _ ↔ s.Names x (.queue r)
    by_cases hx : x = e
    · subst hx
      by_cases hr : r = q
      · subst hr
        simpa using hq
      · rw [Function.update_of_ne hr]
        refine ⟨fun hmem => absurd hmem (h.not_mem x rfl r), fun hn => ?_⟩
        exact absurd (Place.queue.inj (hn.unique hq)) hr
    · refine Iff.trans ?_ (h.mem x (fun he => hx (Option.some.inj he).symm) r)
      by_cases hr : r = q
      · subst hr
        simp [hx]
      · rw [Function.update_of_ne hr]
  placed := fun x _ => by
    by_cases hx : x = e
    · exact ⟨.queue q, hx ▸ hq⟩
    · exact h.placed x fun he => hx (Option.some.inj he).symm
  not_mem := nofun
  id := h.id
  priority := h.priority
  round_robin := h.round_robin

theorem SameCpu.enqueue : SameCpu s (s.enqueue q e) := ⟨rfl, rfl, fun _ => Iff.rfl, fun _ => Iff.rfl⟩

theorem SameCpu.removeFromQueue : SameCpu s (s.removeFromQueue q e) := ⟨rfl, rfl, fun _ => Iff.rfl, fun _ => Iff.rfl⟩

/-! ### Searching the queues -/

theorem Queued.dequeue (h : Queued s L none) (q : Queue C) : (L q = [] ∧ s.dequeue q = (s, none)) ∨
    ∃ e ∈ L q, s.dequeue q = (s.removeFromQueue q e, some e) := by
  have hlast := h.spells.last q
  unfold Sched.dequeue
  rw [hlast]
  cases hl : (L q).getLast? with
  | none => exact .inl ⟨List.getLast?_eq_none_iff.mp hl, rfl⟩
  | some e => exact .inr ⟨e, List.mem_of_getLast? hl, rfl⟩

omit [DecidableEq C] in
theorem length_le_of_spells (hn : n ≤ 1048576) (h : s.queues.Spells L) (q : Queue C) : (L q).length ≤ 1048576 := by
  have := List.Nodup.length_le_card (h.nodup q)
  rw [Fintype.card_fin] at this
  omega

omit [DecidableEq C] in
theorem Queued.length_le (hn : n ≤ 1048576) (h : Queued s L hand) (q : Queue C) : (L q).length ≤ 1048576 :=
  length_le_of_spells hn h.spells q

omit [DecidableEq C] in
/-- The size of a queue does not wrap. -/
theorem size_eq_zero_iff (hn : n ≤ 1048576) (h : s.queues.Spells L) (q : Queue C) :
    (s.queues.head q).size = 0 ↔ L q = [] := by
  constructor
  · intro hsize
    have hlen := length_le_of_spells hn h q
    have hnat := congrArg UInt32.toNat ((h.size q).symm.trans hsize)
    rw [UInt32.toNat_ofNat', Nat.mod_eq_of_lt (by omega)] at hnat
    exact List.length_eq_zero_iff.mp hnat
  · intro hnil
    rw [h.size q, hnil]
    rfl

omit [DecidableEq C] in
theorem Queued.findEnvInQueue (hn : n ≤ 1048576) (h : Queued s L hand) (q : Queue C) (id : BitVec 32) :
    ∃ r, s.findEnvInQueue q id = some r ∧ (∀ e, r = some e → e ∈ L q ∧ (s.envs e).envId = id) ∧
      (r = none → ∀ e ∈ L q, (s.envs e).envId ≠ id) := by
  have hlen : (L q).length < walkFuel := Nat.lt_of_le_of_lt (h.length_le hn q) (by decide)
  obtain ⟨m, r, hsplit, hm, hr, hwalk⟩ := walk_spelled (a := []) (fun e => decide ((s.envs e).envId = id))
    (h.spells.spelled q) hlen
  refine ⟨r.head?, ?_, fun e he => ⟨?_, of_decide_eq_true (hr e he)⟩, fun hnone e he => ?_⟩
  · unfold Sched.findEnvInQueue
    rw [h.spells.first q]
    show Option.map _ (walk _ _ _ ([] : List (Fin n)).getLast? _) = _
    rw [show s.next = fun x => (s.queues.link x).next from rfl, hwalk, Option.map_some]
  · rw [hsplit]
    exact List.mem_append_right _ (List.mem_of_head? he)
  · rw [List.head?_eq_none_iff.mp hnone, List.append_nil] at hsplit
    exact of_decide_eq_false (hm e (hsplit ▸ he))

omit [DecidableEq C] in
theorem Queued.searchReady (hn : n ≤ 1048576) (h : Queued s L hand) (id : BitVec 32) (i k : Nat) :
    ∃ r, s.searchReady id i k = some r ∧ (∀ j e, r = some (j, e) → e ∈ L (.ready j) ∧ (s.envs e).envId = id) ∧
      (r = none → ∀ j, i ≤ j → j < i + k → ∀ e ∈ L (.ready j), (s.envs e).envId ≠ id) := by
  induction k generalizing i with
  | zero => exact ⟨none, rfl, nofun, fun _ j h1 h2 => by omega⟩
  | succ k ih =>
    obtain ⟨r, hr, hsome, hnone⟩ := h.findEnvInQueue hn (.ready i) id
    unfold Sched.searchReady
    rw [hr, Option.bind_some]
    cases r with
    | some e =>
      refine ⟨some (i, e), rfl, ?_, nofun⟩
      rintro j f ⟨⟩
      exact hsome e rfl
    | none =>
      obtain ⟨r, hr, hsome, hrest⟩ := ih (i + 1)
      refine ⟨r, hr, hsome, fun hr j hj hjk e he => ?_⟩
      by_cases hij : j = i
      · subst hij
        exact hnone rfl e he
      · exact hrest hr j (by omega) (by omega) e he

/-! ### Moving one environment -/

omit [DecidableEq C] in
theorem SameCpu.setStatus {st : EnvStatus} (hr : (s.envs e).envStatus ≠ .running) (hf : (s.envs e).envStatus ≠ .free)
    (hr' : st ≠ .running) (hf' : st ≠ .free) : SameCpu s (s.setStatus e st) :=
  SameCpu.modify ⟨fun h => absurd h hr', fun h => absurd h hr⟩ ⟨fun h => absurd h hf', fun h => absurd h hf⟩

omit [DecidableEq C] in
theorem Queued.readyQueue (h : Queued s L hand) (he : (s.envs e).envStatus ≠ .exit) :
    s.readyQueue (s.envs e).priority = some (.ready (s.envs e).priority.toNat) := if_pos (h.priority e he)

theorem Queued.schedInsertReady (h : Queued s L (some e)) (hf : (s.envs e).envStatus ≠ .free)
    (hx : (s.envs e).envStatus ≠ .exit) :
    let i := (s.envs e).priority.toNat
    s.schedInsertReady e = some ((s.setStatus e .ready).enqueue (.ready i) e) ∧
      Queued ((s.setStatus e .ready).enqueue (.ready i) e) (Function.update L (.ready i) (e :: L (.ready i))) none := by
  have hw : Queued (s.setStatus e .ready) L (some e) := h.write (fun _ => h.id e hf) fun _ => h.priority e hx
  constructor
  · simp only [Sched.schedInsertReady]
    rw [hw.readyQueue (by simp [setStatus]), Option.map_some, setStatus, envs_modify_self]
  · refine hw.put ⟨?_, ?_⟩
    · rw [setStatus, envs_modify_self]
    · rw [setStatus, envs_modify_self]
      exact (Int.toNat_of_nonneg (h.priority e hx).1).symm

theorem Queued.schedRemoveNew (h : Queued s L none) (he : e ∈ L .new) :
    s.schedRemoveNew e = some ((s.removeFromQueue .new e).setStatus e .unknown) ∧
      Queued ((s.removeFromQueue .new e).setStatus e .unknown) (Function.update L .new ((L .new).erase e)) (some e) := by
  have hnew : (s.envs e).envStatus = .new := (h.mem e nofun .new).mp he
  constructor
  · unfold Sched.schedRemoveNew
    rw [if_pos hnew]
  · exact (h.take he).write (fun _ => h.id e (by rw [hnew]; nofun)) fun _ => h.priority e (by rw [hnew]; nofun)

theorem Queued.schedRemoveReady (hn : n ≤ 1048576) (h : Queued s L none) {i : Nat} (he : e ∈ L (.ready i)) :
    s.schedRemoveReady e = some ((s.removeFromQueue (.ready i) e).setStatus e .unknown) ∧
      Queued ((s.removeFromQueue (.ready i) e).setStatus e .unknown)
        (Function.update L (.ready i) ((L (.ready i)).erase e)) (some e) := by
  obtain ⟨hready, hprio⟩ := (h.mem e nofun (.ready i)).mp he
  have hid := h.id e (by rw [hready]; nofun)
  constructor
  · obtain ⟨r, hr, hsome, hnone⟩ := h.searchReady hn (s.envs e).envId 0 s.numOfReadyQueues
    unfold Sched.schedRemoveReady
    rw [if_pos hready, hr, Option.map_some]
    rcases r with _ | ⟨j, f⟩
    · have hlt := (h.priority e (by rw [hready]; nofun)).2
      exact absurd rfl (hnone rfl i (Nat.zero_le i) (by omega) e he)
    · obtain ⟨hf, hidf⟩ := hsome j f rfl
      have hfready := ((h.mem f nofun (.ready j)).mp hf).1
      -- The search stops at an environment with the same id, which is the same environment.
      have hfe : f = e := (hidf ▸ h.id f (by rw [hfready]; nofun)).inj hn hid
      subst hfe
      cases h.spells.disjoint _ _ _ hf he
      rfl
  · exact (h.take he).write (fun _ => hid) fun _ => h.priority e (by rw [hready]; nofun)

/-- A ready environment is moved to the queue of another priority. -/
theorem Queued.changePriority_ready (hn : n ≤ 1048576) (h : Queued s L none) {i : Nat} (he : e ∈ L (.ready i)) {p : Int}
    (hp : 0 ≤ p ∧ p < s.numOfReadyQueues) :
    let L' := Function.update L (.ready i) ((L (.ready i)).erase e)
    ∃ t, s.changePriority e p = some t ∧
      Queued t (Function.update L' (.ready p.toNat) (e :: L' (.ready p.toNat))) none ∧ SameCpu s t := by
  have hready := ((h.mem e nofun (.ready i)).mp he).1
  obtain ⟨hremove, hq⟩ := h.schedRemoveReady hn he
  have hw := hq.write (f := ({ · with priority := p, starvcounteer := 0 })) (fun _ => ?_) fun _ => hp
  obtain ⟨hinsert, hq'⟩ := hw.schedInsertReady (by simp [setStatus]) (by simp [setStatus])
  · simp only [envs_modify_self] at hinsert hq'
    refine ⟨_, ?_, hq', ?_⟩
    · unfold Sched.changePriority
      rw [if_pos hready, hremove, Option.bind_some, hinsert]
    · have hnr : (s.envs e).envStatus ≠ .running := by rw [hready]; nofun
      have hnf : (s.envs e).envStatus ≠ .free := by rw [hready]; nofun
      have hout : SameCpu s ((s.removeFromQueue (.ready i) e).setStatus e .unknown) :=
        SameCpu.removeFromQueue.trans (SameCpu.setStatus hnr hnf nofun nofun)
      refine hout.trans (SameCpu.trans ?_ SameCpu.enqueue)
      refine (SameCpu.touch (e := e) ({ · with priority := p, starvcounteer := 0 }) fun _ => rfl).trans ?_
      exact SameCpu.setStatus (by simp [setStatus]) (by simp [setStatus]) nofun nofun
  · simp only [setStatus, envs_modify_self]
    exact h.id e (by rw [hready]; nofun)

theorem Queued.changePriority (hn : n ≤ 1048576) (h : Queued s L none) (e : Fin n) {p : Int}
    (hp : 0 ≤ p ∧ p < s.numOfReadyQueues) :
    ∃ t L', s.changePriority e p = some t ∧ Queued t L' none ∧ SameCpu s t := by
  by_cases hready : (s.envs e).envStatus = .ready
  · have he : e ∈ L (.ready (s.envs e).priority.toNat) :=
      (h.mem e nofun _).mpr ⟨hready, (Int.toNat_of_nonneg (h.priority e (by rw [hready]; nofun)).1).symm⟩
    obtain ⟨t, ht, hq, hcpu⟩ := h.changePriority_ready hn he hp
    exact ⟨t, _, ht, hq, hcpu⟩
  · refine ⟨_, L, if_neg hready, h.touch rfl rfl (fun hr => absurd hr hready) (fun _ => rfl) fun _ => hp, ?_⟩
    exact SameCpu.touch _ fun _ => rfl

omit [DecidableEq C] in
theorem Queued.envid2env (hn : n ≤ 1048576) (h : Queued s L hand) (hf : (s.envs e).envStatus ≠ .free) :
    s.envid2env (s.envs e).envId = some (some e) := by
  obtain ⟨hne, hmask⟩ := h.id e hf
  have hx : ((s.envs e).envId &&& envMask n).toNat = e.val := by
    rw [hmask, BitVec.toNat_ofNat]
    exact Nat.mod_eq_of_lt (by omega)
  unfold Sched.envid2env
  simp only [if_neg hne, hx, e.isLt, dif_pos]
  exact if_neg (by simpa using hf)

theorem Queued.envSetPriority (hn : n ≤ 1048576) (h : Queued s L none) {id : BitVec 32} {p : Int}
    (hs : s.envSetPriority id p = some t) : ∃ L', Queued t L' none ∧ SameCpu s t := by
  unfold Sched.envSetPriority at hs
  split at hs
  case h_1 e _ =>
    obtain ⟨hp, hs⟩ := Option.ite_none_left_eq_some.mp hs
    obtain ⟨u, L', hu, hq, hcpu⟩ := h.changePriority hn e (p := p) (by omega)
    cases hu.symm.trans hs
    exact ⟨L', hq, hcpu⟩
  case h_2 => exact nomatch hs

/-! ### Loops over the ready queues -/

omit [DecidableEq C] in
/-- The rule for a loop over the ready queues: `P i s` says what holds when the queues from `i` on are still to come. -/
theorem forReady_index {body : Sched n C → Nat → Option (Sched n C)} {P : Nat → Sched n C → Prop}
    (hbody : ∀ s i, P i s → ∃ t, body s i = some t ∧ P (i + 1) t) {i : Nat} (hs : P i s) (k : Nat) :
    ∃ t, forReady body s i k = some t ∧ P (i + k) t := by
  induction k generalizing s i with
  | zero => exact ⟨s, rfl, hs⟩
  | succ k ih =>
    obtain ⟨t, ht, hP⟩ := hbody s i hs
    obtain ⟨u, hu, hP⟩ := ih hP
    refine ⟨u, by rw [forReady, ht, Option.bind_some, hu], ?_⟩
    rwa [Nat.add_right_comm] at hP

omit [DecidableEq C] in
/-- A loop over the ready queues keeps what its body keeps. -/
theorem forReady_rule {body : Sched n C → Nat → Option (Sched n C)} {P : Sched n C → Prop}
    (hbody : ∀ s i, P s → ∃ t, body s i = some t ∧ P t) (hs : P s) (i k : Nat) :
    ∃ t, forReady body s i k = some t ∧ P t :=
  forReady_index (P := fun _ => P) hbody hs k

/-- One environment of the ready queue `i` in the promotion loop: it stays, or it moves to the queue before. -/
theorem Queued.starve (hn : n ≤ 1048576) (h : Queued s L none) {i : Nat} {a l : List (Fin n)}
    (hi : L (.ready i) = a ++ e :: l) : ∃ t L' a', s.starve e = some t ∧ Queued t L' none ∧ SameCpu s t ∧
      L' (.ready i) = a' ++ l := by
  have he : e ∈ L (.ready i) := by simp [hi]
  obtain ⟨hready, hprio⟩ := (h.mem e nofun (.ready i)).mp he
  have hcpu := SameCpu.touch (s := s) (e := e) (fun x => { x with starvcounteer := u32 (x.starvcounteer + 1) })
    fun _ => rfl
  have hq := h.touch (e := e) (f := fun x => { x with starvcounteer := u32 (x.starvcounteer + 1) }) rfl rfl
    (fun _ => rfl) (fun _ => rfl) (h.priority e)
  generalize hu : s.modify e (fun x => { x with starvcounteer := u32 (x.starvcounteer + 1) }) = u at hcpu hq
  have hprio' : (u.envs e).priority = i := by rw [← hu, envs_modify_self, ← hprio]
  unfold Sched.starve
  simp only [hu]
  split
  case isFalse => exact ⟨u, L, a ++ [e], rfl, hq, hcpu, by simpa using hi⟩
  case isTrue =>
    split
    case isTrue => exact ⟨u, L, a ++ [e], rfl, hq, hcpu, by simpa using hi⟩
    case isFalse hpos =>
      have hready' : (u.envs e).envStatus = .ready := by rw [← hu, envs_modify_self, ← hready]
      have hbound := (hq.priority e (by rw [hready']; nofun)).2
      have hlive : (u.envs e).envStatus ≠ .free := by rw [hready']; nofun
      obtain ⟨t, ht, hq', hcpu'⟩ := hq.changePriority_ready hn he (p := (u.envs e).priority - 1) (by omega)
      refine ⟨t, _, a, ?_, hq', hcpu.trans hcpu', ?_⟩
      · unfold Sched.envSetPriority
        rw [hq.envid2env hn hlive]
        exact (if_neg (by omega)).trans ht
      · have hne : Queue.ready i ≠ (Queue.ready ((u.envs e).priority - 1).toNat : Queue C) := fun heq => by
          have := Queue.ready.inj heq
          omega
        have hnot : e ∉ a := fun hea => ne_of_nodup_append (hi ▸ h.spells.nodup (.ready i)) hea (by simp)
        rw [Function.update_of_ne hne, Function.update_self, hi, List.erase_append_right _ hnot, List.erase_cons_head]

theorem Queued.promote (hn : n ≤ 1048576) (h : Queued s L none) (i : Nat) :
    ∃ t L', s.promote i = some t ∧ Queued t L' none ∧ SameCpu s t := by
  unfold Sched.promote
  split
  · exact ⟨s, L, rfl, h, .refl s⟩
  · have hlen : (L (.ready i)).length < walkFuel := Nat.lt_of_le_of_lt (h.length_le hn _) (by decide)
    rw [h.spells.first (.ready i)]
    -- The environments still to be visited are the last ones of the queue.
    obtain ⟨t, ht, L', hq, hcpu, -⟩ := forEach_rule Sched.next Sched.starve
      (fun u l => ∃ L', Queued u L' none ∧ SameCpu s u ∧ ∃ a, L' (.ready i) = a ++ l)
      (fun u c l ⟨L', hq, _, a, ha⟩ => (ha ▸ hq.spells.spelled (.ready i)).next_of_split)
      (fun u c l ⟨L', hq, hcpu, a, ha⟩ => by
        obtain ⟨t, L'', a', ht, hq', hcpu', ha'⟩ := hq.starve hn ha
        exact ⟨t, ht, L'', hq', hcpu.trans hcpu', a', ha'⟩)
      ⟨L, h, .refl s, [], rfl⟩ hlen
    exact ⟨t, L', ht, hq, hcpu⟩

end Sched

end Fos.Cpu
