import Fos.Cpu.EnvIds

/-! `envid2env` with its permission check. The index part of an id has as many bits as the next power of two above `NENV`
    needs, so that it can name elements that the table `envs` does not have. -/

namespace Fos.Cpu
open Lib

/-- `E_BAD_ENV` -/
def eBadEnv : Int := -2

/-- The scheduler with the `env_parent_id` of every environment. -/
structure EnvTable (n : Nat) (C : Type) extends Sched n C where
  envParentId : Fin n → BitVec 32 := fun _ => 0

/-- How `envid2env` ends. -/
inductive Lookup (n : Nat) where
  /-- It returns `ret`, and `*env_store` is `store`. -/
  | returns (ret : Int) (store : Option (Fin n))
  /-- It reads `envs[x]` at or beyond `NENV`. -/
  | outOfBounds (x : Nat)
  /-- It follows the null pointer of a current environment that does not exist. -/
  | nullCurrent

namespace EnvTable

variable {n : Nat} {C : Type} {s : EnvTable n C} {e : Fin n} {envid : BitVec 32} {checkperm : Bool}

/-- `envid2env(envid, env_store, checkperm)` -/
def envid2env (s : EnvTable n C) (envid : BitVec 32) (checkperm : Bool) : Lookup n :=
  if envid = 0 then .returns 0 s.proc
  else if h : Sched.envx n envid < n then
    let e : Fin n := ⟨Sched.envx n envid, h⟩
    if (s.envs e).envStatus = .free ∨ (s.envs e).envId ≠ envid then .returns eBadEnv none
    else if checkperm ∧ s.proc ≠ some e then
      match s.proc with
      | none => .nullCurrent
      | some cur => if s.envParentId e ≠ (s.envs cur).envId then .returns eBadEnv none else .returns 0 (some e)
    else .returns 0 (some e)
  else .outOfBounds (Sched.envx n envid)

/-- The id is that of the environment, which is not free, or 0 if the environment is the current one. -/
def Denotes (s : EnvTable n C) (envid : BitVec 32) (e : Fin n) : Prop :=
  if envid = 0 then s.proc = some e else (s.envs e).envStatus ≠ .free ∧ (s.envs e).envId = envid

/-- The environment is the current one or a child of it. -/
def Permitted (s : EnvTable n C) (e : Fin n) : Prop :=
  ∃ cur, s.proc = some cur ∧ (e = cur ∨ s.envParentId e = (s.envs cur).envId)

/-- `envid2env` returns 0 with an environment that the id denotes and that passes the check if one was asked for, or it
    returns `E_BAD_ENV` with null and the slot of the id holds no such environment. -/
def LooksUp (s : EnvTable n C) (envid : BitVec 32) (checkperm : Bool) : Prop :=
  match s.envid2env envid checkperm with
  | .returns ret store =>
    (ret = 0 ∧ ∃ e, store = some e ∧ s.Denotes envid e ∧ (checkperm = true → s.Permitted e)) ∨
      (ret = eBadEnv ∧ store = none ∧
        ∀ e : Fin n, Sched.envx n envid = e → ¬ (s.Denotes envid e ∧ (checkperm = true → s.Permitted e)))
  | .outOfBounds _ => False
  | .nullCurrent => False

/-- An environment is current if the id is 0, and also if the check is asked for and the slot holds an environment with the
    id; and the table has the slot. -/
def InTable (s : EnvTable n C) (envid : BitVec 32) (checkperm : Bool) : Prop :=
  if envid = 0 then s.proc ≠ none
  else Sched.envx n envid < n ∧
    ∀ e : Fin n, Sched.envx n envid = e → checkperm = true → s.Denotes envid e → s.proc ≠ none

/-! ### The cases -/

theorem envid2env_zero : s.envid2env 0 checkperm = .returns 0 s.proc := if_pos rfl

theorem envid2env_outOfBounds (hne : envid ≠ 0) (hx : ¬ Sched.envx n envid < n) :
    s.envid2env envid checkperm = .outOfBounds (Sched.envx n envid) := by
  unfold envid2env
  rw [if_neg hne, dif_neg hx]

/-- The answer for a slot of the table, read at the slot. -/
theorem envid2env_slot (hne : envid ≠ 0) (he : Sched.envx n envid = e) : s.envid2env envid checkperm =
    if (s.envs e).envStatus = .free ∨ (s.envs e).envId ≠ envid then .returns eBadEnv none
    else if checkperm ∧ s.proc ≠ some e then
      match s.proc with
      | none => .nullCurrent
      | some cur => if s.envParentId e ≠ (s.envs cur).envId then .returns eBadEnv none else .returns 0 (some e)
    else .returns 0 (some e) := by
  have hlt : Sched.envx n envid < n := he ▸ e.isLt
  have hslot : (⟨Sched.envx n envid, hlt⟩ : Fin n) = e := Fin.ext he
  unfold envid2env
  rw [if_neg hne, dif_pos hlt, hslot]

theorem denotes_zero : s.Denotes 0 e ↔ s.proc = some e := by
  unfold Denotes
  rw [if_pos rfl]

theorem denotes_iff (hne : envid ≠ 0) : s.Denotes envid e ↔ (s.envs e).envStatus ≠ .free ∧ (s.envs e).envId = envid := by
  unfold Denotes
  rw [if_neg hne]

theorem looksUp_zero : s.LooksUp 0 checkperm ↔ s.proc ≠ none := by
  unfold LooksUp
  rw [envid2env_zero]
  constructor
  · rintro (⟨-, e, hproc, -⟩ | ⟨hret, -⟩)
    · rw [hproc]
      nofun
    · exact absurd hret (by decide)
  · intro hproc
    obtain ⟨cur, hcur⟩ := Option.ne_none_iff_exists'.mp hproc
    exact .inl ⟨rfl, cur, hcur, denotes_zero.mpr hcur, fun _ => ⟨cur, hcur, .inl rfl⟩⟩

/-- At a slot that does not hold an environment with the id. -/
theorem looksUp_stale (hne : envid ≠ 0) (he : Sched.envx n envid = e) (hnot : ¬ s.Denotes envid e) :
    s.LooksUp envid checkperm := by
  have hbad : (s.envs e).envStatus = .free ∨ (s.envs e).envId ≠ envid := by
    rw [denotes_iff hne] at hnot
    tauto
  unfold LooksUp
  rw [envid2env_slot hne he, if_pos hbad]
  refine .inr ⟨rfl, rfl, fun d hd hand => hnot ?_⟩
  rw [Fin.ext (he.symm.trans hd)]
  exact hand.1

/-- At a slot that holds an environment with the id. -/
theorem looksUp_live (hne : envid ≠ 0) (he : Sched.envx n envid = e) (hdenotes : s.Denotes envid e) :
    s.LooksUp envid checkperm ↔ (checkperm = true → s.proc ≠ none) := by
  have hlive : ¬((s.envs e).envStatus = .free ∨ (s.envs e).envId ≠ envid) := by
    rw [denotes_iff hne] at hdenotes
    tauto
  have hslot : ∀ d : Fin n, Sched.envx n envid = d → d = e := fun d hd => Fin.ext (hd.symm.trans he)
  unfold LooksUp
  rw [envid2env_slot hne he, if_neg hlive]
  cases checkperm with
  | false =>
    rw [if_neg (by simp)]
    exact iff_of_true (.inl ⟨rfl, e, rfl, hdenotes, nofun⟩) nofun
  | true =>
    cases hproc : s.proc with
    | none =>
      rw [if_pos ⟨rfl, nofun⟩]
      exact iff_of_false id fun hcur => hcur rfl rfl
    | some cur =>
      refine iff_of_true ?_ fun _ => nofun
      by_cases hcur : cur = e
      · rw [if_neg fun hand => hand.2 (congrArg some hcur)]
        exact .inl ⟨rfl, e, rfl, hdenotes, fun _ => ⟨cur, hproc, .inl hcur.symm⟩⟩
      · rw [if_pos ⟨rfl, fun heq => hcur (Option.some.inj heq)⟩]
        dsimp only
        by_cases hparent : s.envParentId e = (s.envs cur).envId
        · rw [if_neg (not_not_intro hparent)]
          exact .inl ⟨rfl, e, rfl, hdenotes, fun _ => ⟨cur, hproc, .inr hparent⟩⟩
        · rw [if_pos hparent]
          refine .inr ⟨rfl, rfl, fun d hd hand => ?_⟩
          cases hslot d hd
          obtain ⟨cur', hcur', hor⟩ := hand.2 rfl
          cases hproc.symm.trans hcur'
          exact hor.elim (fun heq => hcur heq.symm) hparent

/-- For every table, current environment, id and check, `envid2env` answers as it should if and only if it is not given 0
    without a current environment, does not reach beyond the table, and does not check an environment against a current one
    that does not exist. -/
theorem envid2env_exact_iff (sizeofEnv : Nat) (s : EnvTable (nEnv sizeofEnv) C) (envid : BitVec 32) (checkperm : Bool) :
    s.LooksUp envid checkperm ↔ s.InTable envid checkperm := by
  unfold InTable
  by_cases hne : envid = 0
  · rw [hne, if_pos rfl]
    exact looksUp_zero
  · rw [if_neg hne]
    by_cases hx : Sched.envx (nEnv sizeofEnv) envid < nEnv sizeofEnv
    · have he : Sched.envx (nEnv sizeofEnv) envid = (⟨_, hx⟩ : Fin (nEnv sizeofEnv)) := rfl
      by_cases hdenotes : s.Denotes envid ⟨_, hx⟩
      · rw [looksUp_live hne he hdenotes]
        refine ⟨fun h => ⟨hx, fun e _ hcheck _ => h hcheck⟩, fun h hcheck => h.2 _ he hcheck hdenotes⟩
      · refine iff_of_true (looksUp_stale hne he hdenotes) ⟨hx, fun e hslot _ hand => absurd hand ?_⟩
        rwa [show e = ⟨_, hx⟩ from Fin.ext (hslot.symm.trans he)]
    · refine iff_of_false ?_ fun h => hx h.1
      unfold LooksUp
      rw [envid2env_outOfBounds hne hx]
      exact id

/-- The table after the boot -/
def afterInit [DecidableEq C] : EnvTable n C := { Sched.schedInitRR with }

theorem afterInit_proc [DecidableEq C] : (afterInit : EnvTable n C).proc = none := by
  rw [afterInit, Sched.schedInitRR, Sched.envInit_eq]

/-- No environment exists yet. -/
theorem afterInit_unknown [DecidableEq C] (hne : envid ≠ 0) (hx : Sched.envx n envid < n) :
    (afterInit : EnvTable n C).envid2env envid checkperm = .returns eBadEnv none := by
  have hfree : ((afterInit : EnvTable n C).envs ⟨_, hx⟩).envStatus = .free := by
    rw [afterInit, Sched.schedInitRR, Sched.envInit_eq]
  exact (envid2env_slot (e := ⟨_, hx⟩) hne rfl).trans (if_pos (.inl hfree))

theorem afterInit_inv [DecidableEq C] : ∃ L, Sched.Inv (afterInit : EnvTable n C).toSched L := (Sched.Initial.inv (.inl rfl)).1

/-- With environments of 1480 bytes the table has 708 elements, and the id 1023 has the index 1023; and 0 names the current
    environment also when there is none. -/
theorem envid2env_beyond_table : nEnv 1480 = 708 ∧ ∃ s : EnvTable (nEnv 1480) Unit,
    s.envid2env 1023 false = .outOfBounds 1023 ∧ ¬ s.LooksUp 1023 false ∧
      s.envid2env 0 true = .returns 0 none ∧ ¬ s.LooksUp 0 true := by
  let s : EnvTable (nEnv 1480) Unit := afterInit
  have hx : Sched.envx (nEnv 1480) 1023 = 1023 := by decide +kernel
  have hout : s.envid2env 1023 false = .outOfBounds 1023 := by
    rw [envid2env_outOfBounds (by decide) (by rw [hx]; decide), hx]
  have hproc : s.proc = none := afterInit_proc
  refine ⟨by decide, s, hout, ?_, ?_, fun hlooks => looksUp_zero.mp hlooks hproc⟩
  · unfold LooksUp
    rw [hout]
    exact id
  · rw [envid2env_zero, hproc]

/-- Without the check it is the lookup of the scheduler. -/
theorem envid2env_unchecked (s : EnvTable n C) (envid : BitVec 32) (r : Option (Fin n)) :
    s.toSched.envid2env envid = some r ↔ s.envid2env envid false = .returns 0 r := by
  by_cases hne : envid = 0
  · rw [hne, envid2env_zero, Sched.envid2env, if_pos rfl, Option.some.injEq, Lookup.returns.injEq]
    simp
  · by_cases hx : Sched.envx n envid < n
    · let e : Fin n := ⟨Sched.envx n envid, hx⟩
      have hsched : s.toSched.envid2env envid =
          if (s.envs e).envStatus = .free ∨ (s.envs e).envId ≠ envid then none else some (some e) :=
        (if_neg hne).trans (dif_pos hx)
      rw [hsched, envid2env_slot (e := e) hne rfl]
      split
      case isTrue => exact iff_of_false nofun fun heq => absurd (Lookup.returns.inj heq).1 (by decide)
      case isFalse => simp
    · have hsched : s.toSched.envid2env envid = none := (if_neg hne).trans (dif_neg hx)
      rw [hsched, envid2env_outOfBounds hne hx]
      exact iff_of_false nofun nofun

end EnvTable

end Fos.Cpu
