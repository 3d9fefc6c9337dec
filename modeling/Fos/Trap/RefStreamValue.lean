import Fos.Trap.OptimalFaults
import Fos.Trap.RefStreamLog

/-! The value that `get_optimal_num_faults` computes from the recorded stream, and the one from all references. What is not recorded
    can make the value smaller, and does not when it repeats a reference or comes before the first fault. -/

namespace Fos.Trap
open Lib Heap Disk Mem

theorem pageOf_pageOf (va : Nat) : pageOf (pageOf va) = pageOf va := by
  unfold pageOf roundDown pageSize
  omega

/-- A process refers to a user address. -/
structure Reference (E : Type) where
  env : E
  va : Nat
  write : Bool

/-- The kernel under the OPTIMAL setting, with all references of one process from the start on. -/
structure Traced (E : Type) where
  run : OptimalRun E
  references : List Nat := []

namespace OptimalRun

instance {E : Type} {s : OptimalRun E} {e : E} {va : Nat} {write : Bool} : Decidable (s.Faults e va write) :=
  inferInstanceAs (Decidable (_ = none))

end OptimalRun

namespace Traced

variable {E : Type} [DecidableEq E] {s₀ s t : Traced E} {e : E} {ref : Reference E} {block block' : List Nat}

/-- One reference of some process; those of `e` are put down. -/
def step (e : E) (s : Traced E) (ref : Reference E) : Option (Traced E) :=
  (s.run.reference ref.env ref.va ref.write).map fun r =>
    { run := r, references := if ref.env = e then s.references ++ [ref.va] else s.references }

/-- The pages to which `e` refers. -/
def pages (s : Traced E) : List Nat := s.references.map pageOf

/-- The pages of the recorded references of `e`. -/
def recorded (s : Traced E) (e : E) : List Nat := (s.run.referenceStreamList e).map (pageOf ·.virtualAddress)

/-- The pages of the working set of `e`. -/
def wsPages (s : Traced E) (e : E) : List Nat := (s.run.pageWsList e).map (·.virtualAddress)

/-- The process `e` has been created and has not run. -/
structure Started (e : E) (s : Traced E) : Prop where
  references : s.references = []
  referenceStreamList : s.run.referenceStreamList e = []
  maxSize : 1 ≤ (s.run.mem.ws e).maxSize
  size : (s.run.pageWsList e).length ≤ (s.run.mem.ws e).maxSize
  distinct : (s.wsPages e).Nodup
  prepagedVAs : (s.run.pageWsList e).map (pageOf ·.virtualAddress) <+: (s.run.prepagedVAs e).map pageOf

/-- A reference of `e` that is not lost: it faults, or it repeats the page of the reference before it, or it comes before the first
    fault and is to a page of the working set. -/
def NotLost (e : E) (s : Traced E) (ref : Reference E) : Prop :=
  ref.env = e → s.run.Faults e ref.va ref.write ∨ s.pages.getLast? = some (pageOf ref.va) ∨
    s.recorded e = [] ∧ pageOf ref.va ∈ s.wsPages e

/-! ### One reference -/

/-- What one reference does to the streams of `e`. -/
inductive Streams (e : E) (s : Traced E) (ref : Reference E) (t : Traced E) : Prop
  | other (henv : ref.env ≠ e) (hrecorded : t.recorded e = s.recorded e) (hpages : t.pages = s.pages)
  | fault (henv : ref.env = e) (hfaults : s.run.Faults e ref.va ref.write)
      (hrecorded : t.recorded e = s.recorded e ++ [pageOf ref.va]) (hpages : t.pages = s.pages ++ [pageOf ref.va])
  | hit (henv : ref.env = e) (hfaults : ¬ s.run.Faults e ref.va ref.write) (hrecorded : t.recorded e = s.recorded e)
      (hpages : t.pages = s.pages ++ [pageOf ref.va])

theorem pages_step (hs : step e s ref = some t) :
    t.pages = if ref.env = e then s.pages ++ [pageOf ref.va] else s.pages := by
  obtain ⟨r, -, rfl⟩ := Option.map_eq_some_iff.mp hs
  unfold pages
  dsimp only
  split
  · rw [List.map_append, List.map_singleton]
  · rfl

theorem step_spec (hs : step e s ref = some t) :
    t.run.mem.ws = s.run.mem.ws ∧ t.run.prepagedVAs = s.run.prepagedVAs ∧ s.Streams e ref t := by
  have hpages := pages_step hs
  obtain ⟨r, hr, rfl⟩ := Option.map_eq_some_iff.mp hs
  by_cases hfaults : s.run.Faults ref.env ref.va ref.write
  · obtain ⟨hws, hprepaged, x, hx, hstream⟩ := OptimalRun.reference_fault hr hfaults
    refine ⟨hws, hprepaged, ?_⟩
    rcases eq_or_ne ref.env e with rfl | henv
    · refine .fault rfl hfaults ?_ (hpages.trans (if_pos rfl))
      unfold recorded
      rw [hstream, Function.update_self, List.map_append, List.map_singleton, hx, pageOf_pageOf]
    · refine .other henv ?_ (hpages.trans (if_neg henv))
      unfold recorded
      rw [hstream, Function.update_of_ne henv.symm]
  · obtain ⟨hws, hprepaged, hstream⟩ := OptimalRun.reference_hit hr hfaults
    have hrecorded : ∀ refs, recorded ⟨r, refs⟩ e = s.recorded e := by
      intro refs
      unfold recorded
      rw [hstream]
    refine ⟨hws, hprepaged, ?_⟩
    rcases eq_or_ne ref.env e with rfl | henv
    · exact .hit rfl hfaults (hrecorded _) (hpages.trans (if_pos rfl))
    · exact .other henv (hrecorded _) (hpages.trans (if_neg henv))

/-! ### Runs -/

/-- What every run keeps: the working set, and that the recorded references are some of all references. -/
structure Kept (e : E) (s₀ s : Traced E) : Prop where
  ws : s.run.mem.ws = s₀.run.mem.ws
  prepagedVAs : s.run.prepagedVAs = s₀.run.prepagedVAs
  sublist : (s.recorded e).Sublist s.pages

theorem Kept.step (h : Kept e s₀ s) (hs : step e s ref = some t) : Kept e s₀ t := by
  obtain ⟨hws, hprepaged, hstreams⟩ := step_spec hs
  refine ⟨hws.trans h.ws, hprepaged.trans h.prepagedVAs, ?_⟩
  cases hstreams with
  | other henv hrecorded hpages =>
    rw [hrecorded, hpages]
    exact h.sublist
  | fault henv hfaults hrecorded hpages =>
    rw [hrecorded, hpages]
    exact h.sublist.append_right _
  | hit henv hfaults hrecorded hpages =>
    rw [hrecorded, hpages]
    exact h.sublist.trans (List.sublist_append_left ..)

omit [DecidableEq E] in
theorem Started.kept (h : s₀.Started e) : Kept e s₀ s₀ := by
  refine ⟨rfl, rfl, ?_⟩
  unfold recorded
  rw [h.referenceStreamList]
  exact List.nil_sublist _

omit [DecidableEq E] in
theorem Kept.wsPages (h : Kept e s₀ s) : s.wsPages e = s₀.wsPages e := by
  unfold Traced.wsPages OptimalRun.pageWsList
  rw [h.ws]

/-- When no reference is lost, the recorded references are all that matter. -/
theorem logged_step {C : Finset Nat} (hC : (s.wsPages e).toFinset = C) (h : Logged C s.pages (s.recorded e)) (hok : s.NotLost e ref)
    (hs : step e s ref = some t) : Logged C t.pages (t.recorded e) := by
  obtain ⟨-, -, hstreams⟩ := step_spec hs
  cases hstreams with
  | other henv hrecorded hpages =>
    rw [hrecorded, hpages]
    exact h
  | fault henv hfaults hrecorded hpages =>
    rw [hrecorded, hpages]
    exact h.logged _
  | hit henv hfaults hrecorded hpages =>
    rw [hrecorded, hpages]
    rcases (hok henv).resolve_left hfaults with hlast | ⟨hnone, hmem⟩
    · obtain ⟨before, hbefore⟩ := List.getLast?_eq_some_iff.mp hlast
      rw [hbefore] at h ⊢
      exact h.again
    · rw [hnone] at h ⊢
      exact h.start (hC ▸ List.mem_toFinset.mpr hmem)

theorem logged_run (h : s₀.Started e) (hr : Reach (step e) (NotLost e) s₀ s) :
    Logged (s₀.wsPages e).toFinset s.pages (s.recorded e) := by
  have hinv : Kept e s₀ s ∧ Logged (s₀.wsPages e).toFinset s.pages (s.recorded e) := by
    refine hr.invariant (I := fun s => Kept e s₀ s ∧ Logged (s₀.wsPages e).toFinset s.pages (s.recorded e)) ⟨h.kept, ?_⟩
      fun u ref v hu hok hv => ⟨hu.1.step hv, logged_step (congrArg _ hu.1.wsPages) hu.2 hok hv⟩
    unfold recorded pages
    rw [h.referenceStreamList, h.references]
    exact .nil
  exact hinv.2

/-- The value from the recorded stream is never above the one from all references, and is the same when no reference is lost. -/
theorem optimal_num_faults (h : s₀.Started e) (hr : Reach (step e) (fun _ _ => True) s₀ s)
    (hlen : s.references.length < 2147483647) (hblock : (s.run.mem.ws e).maxSize ≤ block.length)
    (hblock' : (s.run.mem.ws e).maxSize ≤ block'.length) :
    ∃ n t, s.run.sysGetOptimalNumFaults e block = some n ∧
      getOptimalNumFaults (s.run.pageWsList e) (s.run.mem.ws e).maxSize s.references block' = some t ∧
      n ≤ t.faults ∧ (Reach (step e) (NotLost e) s₀ s → n = t.faults) := by
  have hkept : Kept e s₀ s := hr.invariant h.kept fun _ _ _ hu _ hv => hu.step hv
  have hlist : s.run.pageWsList e = s₀.run.pageWsList e := by
    unfold OptimalRun.pageWsList
    rw [hkept.ws]
  have hmax : 1 ≤ (s.run.mem.ws e).maxSize := by
    rw [hkept.ws]
    exact h.maxSize
  have hsize : (s.run.pageWsList e).length ≤ (s.run.mem.ws e).maxSize := by
    rw [hlist, hkept.ws]
    exact h.size
  have hdistinct : ((s.run.pageWsList e).map (·.virtualAddress)).Nodup := by
    rw [hlist]
    exact h.distinct
  have hlen' : ((s.run.referenceStreamList e).map (·.virtualAddress)).length < 2147483647 := by
    have hle := hkept.sublist.length_le
    unfold recorded pages at hle
    rw [List.length_map, List.length_map] at hle
    rw [List.length_map]
    exact hle.trans_lt hlen
  obtain ⟨r, hr', hrun, -⟩ := getOptimalNumFaults_run hmax hsize hdistinct hlen' hblock
  obtain ⟨t, ht, hrun', -⟩ := getOptimalNumFaults_run hmax hsize hdistinct hlen hblock'
  have hcard := card_addresses_le hsize
  have hleast := hrun.isLeast hmax hcard
  have hleast' := hrun'.isLeast hmax hcard
  have hrecorded : ((s.run.referenceStreamList e).map (·.virtualAddress)).map pageOf = s.recorded e := List.map_map
  rw [hrecorded] at hleast
  refine ⟨r.faults, t, ?_, ht, ?_, fun hkeep => ?_⟩
  · unfold OptimalRun.sysGetOptimalNumFaults
    rw [if_pos (by rw [hlist, hkept.prepagedVAs]; exact h.prepagedVAs), hr']
    rfl
  · obtain ⟨m, hm, hle⟩ := hleast'.1.sublist hcard hkept.sublist (Finset.card_eq_zero.mpr (Finset.sdiff_self _)).le
    exact (hleast.2 hm).trans hle
  · have hlogged : Logged ((s.run.pageWsList e).map (·.virtualAddress)).toFinset s.pages (s.recorded e) := by
      rw [hlist]
      exact logged_run h hkeep
    exact le_antisymm (hleast.2 (hlogged.serves_iff.mp hleast'.1)) (hleast'.2 (hlogged.serves_iff.mpr hleast.1))

/-! ### A process with its stack page and room for one more page -/

/-- References that fault are not lost. -/
theorem reach_of_faults {refs : List (Reference E)}
    (hs : exec (fun s ref => if s.run.Faults ref.env ref.va ref.write then step e s ref else none) s₀ refs = some s) :
    Reach (step e) (NotLost e) s₀ s := by
  refine exec_keeps hs (fun u ref v hu hv => ?_) .init
  obtain ⟨hfaults, hv⟩ := Option.ite_none_right_eq_some.mp hv
  exact hu.step ref (fun henv => .inl (henv ▸ hfaults)) hv

/-- The process after the kernel `k` has created it. -/
def created (k : KernelRun Unit) : Traced Unit := { run := { kernel := k.kernel, prepagedVAs := fun _ => [UserMem.stackVa] } }

/-- A reference to the `i`-th page below the first stack page. -/
def stackReference (i : Nat) : Reference Unit := ⟨(), UserMem.stackVa - i * pageSize, false⟩

theorem started_created {k : KernelRun Unit} (hlist : (created k).wsPages () = [UserMem.stackVa])
    (hmax : (k.mem.ws ()).maxSize = 2) : (created k).Started () := by
  have hlength : ((created k).run.pageWsList ()).length = 1 :=
    (List.length_map _).symm.trans (congrArg List.length hlist)
  have hpages : ((created k).run.pageWsList ()).map (pageOf ·.virtualAddress) = ((created k).wsPages ()).map pageOf := by
    unfold wsPages
    rw [List.map_map]
    rfl
  refine ⟨rfl, rfl, (show 1 ≤ 2 by omega).trans_eq hmax.symm, hlength.trans_le ((show 1 ≤ 2 by omega).trans_eq hmax.symm), ?_, ?_⟩
  · rw [hlist]
    exact List.nodup_singleton _
  · rw [hpages, hlist]
    exact List.prefix_rfl

/-- Two pages are referred to, and then the one that was there from the start. -/
theorem optimal_num_faults_same : ∃ k₀ k : KernelRun Unit, ∃ s : Traced Unit, KernelRun.Booted 1024 768 k₀ ∧
    k₀.step (.envCreate () 2 "prog" []) = some k ∧ Reach (step ()) (NotLost ()) (created k) s ∧
      s.references = [1, 2, 0].map (UserMem.stackVa - · * pageSize) ∧
        ∃ n t, s.run.sysGetOptimalNumFaults () [0, 0] = some n ∧
          getOptimalNumFaults (s.run.pageWsList ()) (s.run.mem.ws ()).maxSize s.references [0, 0] = some t ∧ n = t.faults := by
  have hrun : ((PagingRun.afterBoot Unit 1024 768).bind fun r₀ =>
      ((KernelRun.start r₀ {}).step (.envCreate () 2 "prog" [])).bind fun k =>
      (exec (fun s ref => if s.run.Faults ref.env ref.va ref.write then step () s ref else none) (created k)
        ([1, 2, 0].map stackReference)).map fun s => ((created k).wsPages (), (k.mem.ws ()).maxSize, s.references,
          (s.run.mem.ws ()).maxSize)) =
        some ([UserMem.stackVa], 2, [1, 2, 0].map (UserMem.stackVa - · * pageSize), 2) := by
    rw [PagingRun.afterBoot_eq]
    decide +kernel
  obtain ⟨r₀, hboot, hrun⟩ := Option.bind_eq_some_iff.mp hrun
  obtain ⟨k, hk, hrun⟩ := Option.bind_eq_some_iff.mp hrun
  obtain ⟨s, hs, hres⟩ := Option.map_eq_some_iff.mp hrun
  simp only [Prod.mk.injEq] at hres
  obtain ⟨hlist, hmax, hrefs, hmax'⟩ := hres
  have hr := reach_of_faults hs
  have hany : Reach (step ()) (fun _ _ => True) (created k) s :=
    hr.invariant (I := Reach (step ()) (fun _ _ => True) (created k)) .init fun _ ref _ hu _ hv => hu.step ref trivial hv
  have hblock : (s.run.mem.ws ()).maxSize ≤ ([0, 0] : List Nat).length := hmax'.le
  obtain ⟨n, t, hn, ht, -, hsame⟩ :=
    optimal_num_faults (started_created hlist hmax) hany (by rw [hrefs]; decide) hblock hblock
  exact ⟨_, k, s, KernelRun.booted_start hboot {}, hk, hr, hrefs, n, t, hn, ht, hsame hr⟩

/-- The first page is referred to once more, which is not recorded. -/
theorem optimal_num_faults_lost : ∃ k₀ k : KernelRun Unit, ∃ s : Traced Unit, KernelRun.Booted 1024 768 k₀ ∧
    k₀.step (.envCreate () 2 "prog" []) = some k ∧ (created k).Started () ∧
      exec (step ()) (created k) ([1, 2, 1, 0].map stackReference) = some s ∧
        s.references = [1, 2, 1, 0].map (UserMem.stackVa - · * pageSize) ∧
          s.recorded () = [1, 2, 0].map (UserMem.stackVa - · * pageSize) ∧
            s.run.sysGetOptimalNumFaults () [0, 0] = some 2 ∧
              (getOptimalNumFaults (s.run.pageWsList ()) (s.run.mem.ws ()).maxSize s.references [0, 0]).map (·.faults) = some 3 := by
  have hrun : ((PagingRun.afterBoot Unit 1024 768).bind fun r₀ =>
      ((KernelRun.start r₀ {}).step (.envCreate () 2 "prog" [])).bind fun k =>
      (exec (step ()) (created k) ([1, 2, 1, 0].map stackReference)).map fun s => ((created k).wsPages (), (k.mem.ws ()).maxSize,
        s.references, s.recorded (), decide (s.run.sysGetOptimalNumFaults () [0, 0] = some 2),
        decide ((getOptimalNumFaults (s.run.pageWsList ()) (s.run.mem.ws ()).maxSize s.references [0, 0]).map (·.faults) = some 3))) =
        some ([UserMem.stackVa], 2, [1, 2, 1, 0].map (UserMem.stackVa - · * pageSize),
          [1, 2, 0].map (UserMem.stackVa - · * pageSize), true, true) := by
    rw [PagingRun.afterBoot_eq]
    decide +kernel
  obtain ⟨r₀, hboot, hrun⟩ := Option.bind_eq_some_iff.mp hrun
  obtain ⟨k, hk, hrun⟩ := Option.bind_eq_some_iff.mp hrun
  obtain ⟨s, hs, hres⟩ := Option.map_eq_some_iff.mp hrun
  simp only [Prod.mk.injEq] at hres
  obtain ⟨hlist, hmax, hrefs, hrecorded, hvalue, hvalue'⟩ := hres
  exact ⟨_, k, s, KernelRun.booted_start hboot {}, hk, started_created hlist hmax, hs, hrefs, hrecorded, of_decide_eq_true hvalue,
    of_decide_eq_true hvalue'⟩

end Traced

end Fos.Trap
