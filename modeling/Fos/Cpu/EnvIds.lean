import Fos.Cpu.SchedRun

/-! The ids of the environments over any history of creations, in slots that were used before or not. -/

namespace Fos.Cpu
open Lib

/-! ### Signs -/

theorem toInt_pos_of_msb {x : BitVec 32} (hmsb : x.msb = false) (hne : x ≠ 0) : 0 < x.toInt := by
  rw [BitVec.toInt_eq_toNat_of_msb hmsb]
  have hnat : x.toNat ≠ 0 := fun h => hne (BitVec.eq_of_toNat_eq h)
  omega

theorem msb_of_toNat_lt {x : BitVec 32} (h : x.toNat < 2147483648) : x.msb = false := by
  rw [BitVec.msb_eq_decide]
  exact decide_eq_false (Nat.not_le.mpr h)

/-- The generation is not negative, and the index does not reach the sign. -/
theorem nextEnvId_pos {n : Nat} (hn : n ≤ 1048576) (e : Fin n) (id : BitVec 32) : 0 < (nextEnvId e id).toInt := by
  refine toInt_pos_of_msb ?_ (idOf_nextEnvId hn e id).1
  have hindex : (BitVec.ofNat 32 e.val).msb = false := by
    refine msb_of_toNat_lt ?_
    rw [BitVec.toNat_ofNat]
    exact lt_of_le_of_lt (Nat.mod_le ..) (lt_of_lt_of_le e.isLt (hn.trans (by decide)))
  unfold nextEnvId
  rw [BitVec.msb_or, hindex, Bool.or_false]
  split
  case isTrue =>
    obtain ⟨k, -, -, -, -, hlog⟩ := nearestPow2Ceil_eq hn
    have hsmall : 2 ^ log2Ceil n ≤ 2 ^ 21 := Nat.pow_le_pow_right (by decide) hlog
    refine msb_of_toNat_lt ?_
    rw [BitVec.toNat_shiftLeft, Nat.shiftLeft_eq, BitVec.toNat_ofNat]
    exact lt_of_le_of_lt (Nat.mod_le ..) (by omega)
  case isFalse hpos =>
    by_contra hmsb
    have hneg := BitVec.toInt_neg_of_msb_true (Bool.not_eq_false _ ▸ hmsb)
    omega

namespace Sched

variable {n : Nat} {C : Type} [DecidableEq C] {s t : Sched n C} {d e : Fin n}

/-- `complete_environment_initialization(&envs[e])` -/
def completeEnvironmentInitialization (s : Sched n C) (e : Fin n) : Sched n C :=
  s.modify e fun x => { x with envStatus := .new, envId := nextEnvId e x.envId }

/-- `free_environment(&envs[e])` -/
def freeEnvironment (s : Sched n C) (e : Fin n) : Sched n C := (s.modify e fun _ => {}).enqueue .free e

/-- `ENVX(envid)` -/
def envx (n : Nat) (envid : BitVec 32) : Nat := (envid &&& envMask n).toNat

end Sched

theorem IdOf.envx {n : Nat} (hn : n ≤ 1048576) {e : Fin n} {id : BitVec 32} (h : IdOf e id) : Sched.envx n id = e := by
  rw [Sched.envx, h.2, BitVec.toNat_ofNat]
  exact Nat.mod_eq_of_lt (lt_of_lt_of_le e.isLt (hn.trans (by decide)))

/-- What happens to a slot. -/
inductive SlotEvent (n : Nat) where
  | create (e : Fin n)
  | free (e : Fin n)

namespace Sched

variable {n : Nat} {C : Type} [DecidableEq C] {s₀ s t : Sched n C} {d e : Fin n} {ev : SlotEvent n}

def slotStep (s : Sched n C) : SlotEvent n → Option (Sched n C)
  | .create e => some (s.completeEnvironmentInitialization e)
  | .free e => some (s.freeEnvironment e)

/-- The environments that are live have ids with their index, and so the ids of different environments differ. -/
structure Named (s : Sched n C) : Prop where
  positive : ∀ e, (s.envs e).envStatus ≠ .free → 0 < (s.envs e).envId.toInt
  index : ∀ e, (s.envs e).envStatus ≠ .free → envx n (s.envs e).envId = e
  differ : ∀ d e, (s.envs d).envStatus ≠ .free → (s.envs e).envStatus ≠ .free → d ≠ e → (s.envs d).envId ≠ (s.envs e).envId
  found : ∀ e, (s.envs e).envStatus ≠ .free → s.envid2env (s.envs e).envId = some (some e)

/-- Every live environment has an id that was generated for its slot. -/
def Generated (s : Sched n C) : Prop := ∀ e, (s.envs e).envStatus ≠ .free → ∃ id, (s.envs e).envId = nextEnvId e id

omit [DecidableEq C] in
theorem Generated.named (hn : n ≤ 1048576) (h : s.Generated) : s.Named := by
  have hid : ∀ e, (s.envs e).envStatus ≠ .free → IdOf e (s.envs e).envId := by
    intro e he
    obtain ⟨id, hid⟩ := h e he
    exact hid ▸ idOf_nextEnvId hn e id
  have hindex : ∀ e, (s.envs e).envStatus ≠ .free → envx n (s.envs e).envId = e := fun e he => (hid e he).envx hn
  refine ⟨fun e he => ?_, hindex, fun d e hd he hne heq => ?_, fun e he => ?_⟩
  · obtain ⟨id, hid⟩ := h e he
    exact hid ▸ nextEnvId_pos hn e id
  · exact hne ((hid d hd).inj hn (heq ▸ hid e he))
  · have hx : ((s.envs e).envId &&& envMask n).toNat = e.val := hindex e he
    unfold envid2env
    simp only [if_neg (hid e he).1, hx, e.isLt, dif_pos]
    exact if_neg (by simpa using he)

theorem Generated.step (h : s.Generated) (hs : s.slotStep ev = some t) : t.Generated := by
  intro d hd
  cases ev with
  | create e =>
    cases hs
    rcases eq_or_ne d e with rfl | hne
    · exact ⟨_, congrArg Env.envId (envs_modify_self _)⟩
    · have heq : ((s.completeEnvironmentInitialization e).envs d) = s.envs d := envs_modify_of_ne _ hne
      rw [heq] at hd ⊢
      exact h d hd
  | free e =>
    cases hs
    rcases eq_or_ne d e with rfl | hne
    · have heq : (s.freeEnvironment d).envs d = {} := envs_modify_self (s := s) fun _ => {}
      rw [heq] at hd
      exact absurd rfl hd
    · have heq : (s.freeEnvironment e).envs d = s.envs d := envs_modify_of_ne (s := s) (fun _ => {}) hne
      rw [heq] at hd ⊢
      exact h d hd

/-- The ids after any history of creations, whatever ids the slots had before it. -/
theorem env_ids (sizeofEnv : Nat) {s₀ s : Sched (nEnv sizeofEnv) C} (hfree : ∀ e, (s₀.envs e).envStatus = .free)
    (hr : Reach slotStep (fun _ _ => True) s₀ s) : s.Named := by
  have hgenerated : s.Generated := by
    refine hr.invariant (I := Generated) (fun e he => absurd (hfree e) he) fun _ _ _ h _ hs => h.step hs
  exact hgenerated.named (nEnv_le _)

/-- The last generation of slot 1 is behind, and its next id is that of the first one. -/
theorem env_ids_wrapped : ∃ s₀ s : Sched (nEnv 349525) Unit, (∀ e, (s₀.envs e).envStatus = .free) ∧
    Reach slotStep (fun _ _ => True) s₀ s ∧ s₀.envs ⟨1, by decide⟩ = { envId := 2147483641#32 } ∧
    s.envs ⟨1, by decide⟩ = { envStatus := .new, envId := 9#32 } ∧ s.Named := by
  have hid : nextEnvId (n := nEnv 349525) ⟨1, by decide⟩ 2147483641#32 = 9#32 := by decide +kernel
  generalize hs₀ : ({ schedInitRR with envs := fun _ => { envId := 2147483641#32 } } : Sched (nEnv 349525) Unit) = s₀
  have henvs : ∀ e, s₀.envs e = { envId := 2147483641#32 } := fun e => by rw [← hs₀]
  have hfree : ∀ e, (s₀.envs e).envStatus = .free := fun e => by rw [henvs e]
  have hr : Reach slotStep (fun _ _ => True) s₀ (s₀.completeEnvironmentInitialization ⟨1, by decide⟩) :=
    .step (.create ⟨1, by decide⟩) .init trivial rfl
  refine ⟨s₀, _, hfree, hr, henvs _, ?_, env_ids 349525 hfree hr⟩
  unfold completeEnvironmentInitialization
  rw [envs_modify_self, henvs, hid]

/-! ### Ids of environments that were released -/

end Sched

/-- What happens to the table `envs`: an environment is created from the free list, or a live one is released. -/
inductive EnvEvent (n : Nat) where
  | envCreate
  | freeEnvironment (e : Fin n)

namespace Sched

variable {n : Nat} {C : Type} [DecidableEq C] {s₀ s t u : Sched n C} {d e : Fin n} {ev : EnvEvent n}

def envStep (s : Sched n C) : EnvEvent n → Option (Sched n C)
  | .envCreate => s.envCreate.map Prod.fst
  | .freeEnvironment e => if (s.envs e).envStatus = .free then none else some (s.freeEnvironment e)

/-- The id `id` that slot `e` had before is not its id now, and `envid2env` refuses it. -/
def Detects (s : Sched n C) (e : Fin n) (id : BitVec 32) : Prop := (s.envs e).envId ≠ id ∧ s.envid2env id = none

/-- The slots on the free list are free and have no id, and every live environment has the first id of its slot:
    `free_environment` clears the id from which the next generation is computed. -/
structure FirstIds (s : Sched n C) : Prop where
  free : ∀ e, (s.envs e).envStatus = .free → (s.envs e).envId = 0
  live : ∀ e, (s.envs e).envStatus ≠ .free → (s.envs e).envId = nextEnvId e 0
  list : ∃ L, s.queues.Spells L ∧ (∀ q, q ≠ .free → L q = []) ∧ ∀ e ∈ L .free, (s.envs e).envStatus = .free

omit [DecidableEq C] in
theorem FirstIds.generated (h : s.FirstIds) : s.Generated := fun e he => ⟨0, h.live e he⟩

theorem FirstIds.envCreate (h : s.FirstIds) (hs : s.envCreate = some (t, e)) : t.FirstIds := by
  obtain ⟨L, hspells, hothers, hmem⟩ := h.list
  obtain ⟨e', hfirst, heq⟩ := Option.map_eq_some_iff.mp hs
  have hin : e' ∈ L .free := hspells.mem_of_first hfirst
  simp only [Prod.mk.injEq] at heq
  obtain ⟨rfl, rfl⟩ := heq
  rw [removeFromQueue_modify]
  have hself := envs_modify_self (s := s.removeFromQueue .free e')
    (e := e') fun x => { x with envStatus := .new, starvcounteer := 0, envId := nextEnvId e' x.envId }
  have hne : ∀ d, d ≠ e' → _ := fun d hd => envs_modify_of_ne (s := s.removeFromQueue .free e')
    (fun x => { x with envStatus := .new, starvcounteer := 0, envId := nextEnvId e' x.envId }) hd
  refine ⟨fun d hd => ?_, fun d hd => ?_, _, hspells.remove hin, fun q hq => ?_, fun d hd => ?_⟩
  · rcases eq_or_ne d e' with rfl | hde
    · rw [hself] at hd
      exact nomatch hd
    · rw [hne d hde] at hd ⊢
      exact h.free d hd
  · rcases eq_or_ne d e' with rfl | hde
    · rw [hself]
      exact congrArg (nextEnvId d) (h.free d (hmem d hin))
    · rw [hne d hde] at hd ⊢
      exact h.live d hd
  · rw [Function.update_of_ne hq]
    exact hothers q hq
  · rw [Function.update_self] at hd
    have hde : d ≠ e' := by
      rintro rfl
      exact (hspells.nodup .free).not_mem_erase hd
    rw [hne d hde]
    exact hmem d (List.mem_of_mem_erase hd)

theorem FirstIds.freeEnvironment (h : s.FirstIds) (hlive : (s.envs e).envStatus ≠ .free) : (s.freeEnvironment e).FirstIds := by
  obtain ⟨L, hspells, hothers, hmem⟩ := h.list
  have hself : (s.freeEnvironment e).envs e = {} := envs_modify_self (s := s) fun _ => {}
  have hne : ∀ d, d ≠ e → (s.freeEnvironment e).envs d = s.envs d := fun d hd => envs_modify_of_ne (s := s) (fun _ => {}) hd
  have hnot : ∀ q, e ∉ L q := by
    intro q hq
    rcases eq_or_ne q .free with rfl | hfree
    · exact hlive (hmem e hq)
    · rw [hothers q hfree] at hq
      exact nomatch hq
  have hinsert : (s.freeEnvironment e).queues.Spells (Function.update L .free (e :: L .free)) := hspells.insertHead hnot
  refine ⟨fun d hd => ?_, fun d hd => ?_, _, hinsert, fun q hq => ?_, fun d hd => ?_⟩
  · rcases eq_or_ne d e with rfl | hde
    · rw [hself]
    · rw [hne d hde] at hd ⊢
      exact h.free d hd
  · rcases eq_or_ne d e with rfl | hde
    · rw [hself] at hd
      exact absurd rfl hd
    · rw [hne d hde] at hd ⊢
      exact h.live d hd
  · rw [Function.update_of_ne hq]
    exact hothers q hq
  · rw [Function.update_self] at hd
    rcases List.mem_cons.mp hd with rfl | hd
    · rw [hself]
    · have hde : d ≠ e := fun heq => hnot .free (heq ▸ hd)
      rw [hne d hde]
      exact hmem d hd

theorem FirstIds.step (h : s.FirstIds) (hs : s.envStep ev = some t) : t.FirstIds := by
  cases ev with
  | envCreate =>
    obtain ⟨⟨u, e⟩, hu, rfl⟩ := Option.map_eq_some_iff.mp hs
    exact h.envCreate hu
  | freeEnvironment e =>
    obtain ⟨hlive, hs⟩ := Option.ite_none_left_eq_some.mp hs
    cases hs
    exact h.freeEnvironment hlive

theorem FirstIds.reach (h : s.FirstIds) (hr : Reach envStep (fun _ _ => True) s t) : t.FirstIds :=
  hr.invariant h fun _ _ _ hi _ hs => hi.step hs

theorem Initial.envs (h : s.Initial) : s.envs = fun _ => {} := by
  rcases h with rfl | ⟨k, thr, hs⟩
  · rw [schedInitRR, envInit_eq]
  · unfold schedInitPRIRR at hs
    split at hs
    case isTrue =>
      cases hs
      rw [schedInitRR, envInit_eq]
    case isFalse =>
      obtain ⟨-, hs⟩ := Option.ite_none_left_eq_some.mp hs
      cases hs
      rw [envInit_eq]

theorem Initial.firstIds (h : s.Initial) : s.FirstIds := by
  obtain ⟨L, hinv⟩ := h.inv.1
  have hfree := h.inv.2
  refine ⟨fun e _ => by rw [h.envs], fun e he => absurd (hfree e) he, L, hinv.spells, fun q hq => ?_, fun e _ => hfree e⟩
  refine List.eq_nil_iff_forall_not_mem.mpr fun e he => ?_
  have hplace := (hinv.mem e nofun q).mp he
  exact hq (Place.queue.inj (hplace.unique (show s.Names e (.queue .free) from hfree e)))

/-- A slot that is released and used again has its old id again, and `envid2env` takes the old id for the new
    environment. -/
theorem stale_id_accepted (sizeofEnv : Nat) {s₀ s t u : Sched (nEnv sizeofEnv) C} {e : Fin (nEnv sizeofEnv)} (h₀ : s₀.Initial)
    (hs : Reach envStep (fun _ _ => True) s₀ s) (hfree : s.envStep (.freeEnvironment e) = some t)
    (hu : Reach envStep (fun _ _ => True) t u) (hnew : (u.envs e).envStatus ≠ .free) :
    ¬ u.Detects e (s.envs e).envId ∧ u.envid2env (s.envs e).envId = some (some e) := by
  obtain ⟨hlive, -⟩ := Option.ite_none_left_eq_some.mp hfree
  have hids := h₀.firstIds.reach hs
  have hids' := (hids.step hfree).reach hu
  have heq : (u.envs e).envId = (s.envs e).envId := (hids'.live e hnew).trans (hids.live e hlive).symm
  refine ⟨fun hdetects => hdetects.1 heq, ?_⟩
  rw [← heq]
  exact (hids'.generated.named (nEnv_le _)).found e hnew

/-- The three slots are used once, slot 1 is released and used again. -/
theorem stale_id_accepted_one : ∃ s t u : Sched (nEnv 349525) Unit, Reach envStep (fun _ _ => True) schedInitRR s ∧
    s.envStep (.freeEnvironment ⟨1, by decide⟩) = some t ∧ t.envStep .envCreate = some u ∧
    ¬ u.Detects ⟨1, by decide⟩ (s.envs ⟨1, by decide⟩).envId ∧
    u.envid2env (s.envs ⟨1, by decide⟩).envId = some (some ⟨1, by decide⟩) := by
  have hrun : ((exec envStep (schedInitRR : Sched (nEnv 349525) Unit) [.envCreate, .envCreate, .envCreate]).bind fun s =>
      (s.envStep (.freeEnvironment ⟨1, by decide⟩)).bind fun t => (t.envStep .envCreate).map fun u =>
        (u.envs ⟨1, by decide⟩).envStatus) = some .new := by
    decide +kernel
  obtain ⟨s, hs, hrun⟩ := Option.bind_eq_some_iff.mp hrun
  obtain ⟨t, ht, hrun⟩ := Option.bind_eq_some_iff.mp hrun
  obtain ⟨u, hu, hnew⟩ := Option.map_eq_some_iff.mp hrun
  have hr := Reach.of_exec_all hs fun _ _ _ => trivial
  exact ⟨s, t, u, hr, ht, hu, stale_id_accepted 349525 (.inl rfl) hr ht (.step .envCreate .init trivial hu)
    (by rw [hnew]; exact nofun)⟩

/-- An environment is created in slot 0, released, and another one is created there: both have the id 8 (`ENVGENSHIFT` is
    3 for three slots), so the id of the first one is not refused. -/
theorem stale_id_found : ∃ s t u : Sched (nEnv 349525) Unit, schedInitRR.envStep .envCreate = some s ∧
    s.envStep (.freeEnvironment ⟨0, by decide⟩) = some t ∧ t.envStep .envCreate = some u ∧
    (s.envs ⟨0, by decide⟩).envId = 8#32 ∧ (u.envs ⟨0, by decide⟩).envId = 8#32 ∧
    u.envid2env 8#32 = some (some ⟨0, by decide⟩) ∧ ¬ u.Detects ⟨0, by decide⟩ (s.envs ⟨0, by decide⟩).envId := by
  have hrun : ((envStep (schedInitRR : Sched (nEnv 349525) Unit) .envCreate).bind fun s =>
      (s.envStep (.freeEnvironment ⟨0, by decide⟩)).bind fun t => (t.envStep .envCreate).map fun u =>
        ((s.envs ⟨0, by decide⟩).envId, (u.envs ⟨0, by decide⟩).envId, u.envid2env 8#32)) =
      some (8#32, 8#32, some (some ⟨0, by decide⟩)) := by
    decide +kernel
  obtain ⟨s, hs, hrun⟩ := Option.bind_eq_some_iff.mp hrun
  obtain ⟨t, ht, hrun⟩ := Option.bind_eq_some_iff.mp hrun
  obtain ⟨u, hu, hids⟩ := Option.map_eq_some_iff.mp hrun
  simp only [Prod.mk.injEq] at hids
  obtain ⟨hold, hnew, hfound⟩ := hids
  exact ⟨s, t, u, hs, ht, hu, hold, hnew, hfound, fun hdetects => hdetects.1 (hnew.trans hold.symm)⟩

end Sched

end Fos.Cpu
