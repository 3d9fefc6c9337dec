import Fos.Handoff.Pre

/-! The CPU goes safely from thread to thread: in any run, whatever the scheduler chooses, whenever interrupts come and whatever
    the processes call, nothing panics and no spinlock is waited for. A thread that does not have the CPU holds no lock. -/

namespace Fos.Handoff
open Lib Conc View Kernel

variable {P L C : Type} {thread : Option P} {p : P} {v w : View P L} {s t u : Kernel P L C} {k : List (Act P L C)} {a : Act P L C}

/-! ### The invariant -/

/-- The machine is as the current thread sees it. -/
structure Fits (v : View P L) (s : Kernel P L C) : Prop where
  holds : Holds v.flag v.n v.held v.mine v.r s.m
  mine : v.mine ⊆ v.held
  held : s.held s.cur = v.held
  proc : s.proc = v.proc
  status : ∀ p, s.proc = some p → s.status p = v.status
  quiet : v.Quiet s.cur
  own : s.cur ≠ none → v.proc = s.cur ∧ v.next = none
  next : ∀ p, v.next = some p → s.status p = .ready

/-- A view in which the CPU goes from thread to thread -/
theorem Fits.meeting (hfits : Fits v s) (hm : v.Meeting) (hproc : v.proc = some p) (hnext : v.next = none) :
    (∀ flag r st, { v with flag := flag, r := r, status := st } = between flag {.qlock} r (some p) st) ∧
      Holds v.flag 1 {.qlock} {.qlock} v.r s.m := by
  have hholds := hfits.holds
  rw [hm.n, hm.held, hm.mine] at hholds
  refine ⟨fun flag r st => ?_, hholds⟩
  rw [hm.n, hm.held, hm.mine, hproc, hnext, between, Finset.card_singleton]

/-- Where interrupts are enabled, `pushcli` is not called and the thread is calm. -/
theorem Fits.enabled (hfits : Fits v s) (hon : s.m.interrupts = true) : v.Between ∧ v.held = ∅ ∧ v.Calm s.cur ∧ v.flag = true := by
  have hholds := hfits.holds
  have hn : v.n = 0 := by
    rcases Nat.eq_zero_or_pos v.n with hzero | hpos
    · exact hzero
    · rw [(hholds.nested hpos).1] at hon
      cases hon
  have hheld : v.held = ∅ := by
    rcases v.held.eq_empty_or_nonempty with hnone | hsome
    · exact hnone
    · have hpos := hholds.masks hsome
      omega
  have hmine : v.mine = ∅ := Finset.subset_empty.mp (by rw [← hheld]; exact hfits.mine)
  exact ⟨⟨by rw [hn, hheld]; rfl, hmine.trans hheld.symm⟩, hheld, hfits.quiet hn, by rw [← hholds.first hn, hon]⟩

/-- A process that is blocked is in the queue of one channel, and no other process is. -/
structure Queued (s : Kernel P L C) : Prop where
  blocked : ∀ p, (∃ c, p ∈ s.queue c) ↔ s.status p = .blocked
  nodup : ∀ c, (s.queue c).Nodup
  apart : ∀ c c' p, p ∈ s.queue c → p ∈ s.queue c' → c = c'

variable [DecidableEq L]

/-- A process that does not have the CPU can go on when the scheduler meets it, with the local variables that it saved. -/
def Parked (s : Kernel P L C) (p : P) : Prop :=
  ∀ flag r, (∀ x, s.saved p = some x → x = (flag, r)) →
    wp (some p) (Done (some p)) (s.cont (some p)) (between flag {.qlock} r (some p) .running)

structure Inv (s : Kernel P L C) : Prop where
  current : ∃ v, Fits v s ∧ wp s.cur (Done s.cur) (s.cont s.cur) v
  parked : ∀ p, s.cur ≠ some p → Parked s p
  scheduler : ∀ p, s.cur = some p → ∀ flag r status, status ≠ .running →
    wp none (Done none) (s.cont none) (between flag {.qlock} r (some p) status)
  others : ∀ thread, thread ≠ s.cur → s.held thread = ∅
  running : ∀ p, s.status p = .running → s.proc = some p
  queued : Queued s

variable [DecidableEq P]

/-- The current thread goes on with other code, and nothing of the other threads has changed. -/
theorem Inv.stay (h : Inv s) (hcur : u.cur = s.cur) (hcont : u.cont = s.cont) (hsaved : u.saved = s.saved)
    (hheld : ∀ thread, thread ≠ s.cur → u.held thread = s.held thread) (hfits : Fits v u)
    (hwp : wp s.cur (Done s.cur) k v) (hrunning : ∀ p, u.status p = .running → u.proc = some p) (hqueued : Queued u) :
    Inv (u.goto k) where
  current := by
    refine ⟨v, ⟨hfits.holds, hfits.mine, hfits.held, hfits.proc, hfits.status, hfits.quiet, hfits.own, hfits.next⟩, ?_⟩
    show wp u.cur (Done u.cur) (Function.update u.cont u.cur k u.cur) v
    rwa [Function.update_self, hcur]
  parked p hp := by
    have hne : (some p : Option P) ≠ u.cur := fun heq => hp heq.symm
    have hold := h.parked p (by rw [← hcur]; exact hp)
    intro flag r hx
    show wp (some p) (Done (some p)) (Function.update u.cont u.cur k (some p)) _
    rw [Function.update_of_ne hne, hcont]
    exact hold flag r fun x hsome => hx x (by rw [← hsome, ← hsaved]; rfl)
  scheduler p hp := by
    have hne : (none : Option P) ≠ u.cur := fun heq => Option.some_ne_none p (hp.symm.trans heq.symm)
    have hold := h.scheduler p (by rw [← hcur]; exact hp)
    show ∀ flag r status, _ → wp none (Done none) (Function.update u.cont u.cur k none) _
    rwa [Function.update_of_ne hne, hcont]
  others thread hne := by
    have hne' : thread ≠ s.cur := by
      rw [← hcur]
      exact hne
    exact (hheld thread hne').trans (h.others thread hne')
  running := hrunning
  queued := ⟨hqueued.blocked, hqueued.nodup, hqueued.apart⟩

/-! ### The machine -/

omit [DecidableEq P] in
/-- An operation that a view allows is possible, and the view says what it leads to. -/
theorem op_sound {m : Machine (Lock L)} {o : Op (Lock L)} (h : Holds v.flag v.n v.held v.mine v.r m) (hmine : v.mine ⊆ v.held)
    (ho : v.op o = some w) : ∃ m', m.step o = some m' ∧ Holds w.flag w.n w.held w.mine w.r m' ∧ w.mine ⊆ w.held ∧
      w.held = heldAfter v.held o ∧ w.proc = v.proc ∧ w.status = v.status ∧ w.next = v.next := by
  cases o with
  | pushcli =>
    obtain ⟨hn, hw⟩ := Option.ite_none_right_eq_some.mp ho
    cases hw
    exact ⟨_, rfl, h.pushcli hn, hmine, rfl, rfl, rfl, rfl⟩
  | popcli =>
    obtain ⟨⟨hpos, hle, hcovers⟩, hw⟩ := Option.ite_none_right_eq_some.mp ho
    cases hw
    have hn : v.n = v.n - 1 + 1 := by omega
    rw [hn] at h
    obtain ⟨m', hm', hh⟩ := h.popcli (by omega) fun hne => by
      have := hcovers.resolve_left hne.ne_empty
      omega
    exact ⟨m', hm', hh, hmine, rfl, rfl, rfl, rfl⟩
  | test lk =>
    obtain ⟨heq, hw⟩ := Option.ite_none_right_eq_some.mp ho
    cases hw
    rw [heq] at h
    have hh := h.test lk
    exact ⟨_, rfl, by rw [heq]; exact hh, hmine, rfl, rfl, rfl, rfl⟩
  | panicIf value =>
    obtain ⟨hr, hw⟩ := Option.ite_none_left_eq_some.mp ho
    cases hw
    exact ⟨m, if_neg (by rw [h.r]; exact hr), h, hmine, rfl, rfl, rfl, rfl⟩
  | xchg lk =>
    obtain ⟨⟨hpos, hlk, heq⟩, hw⟩ := Option.ite_none_right_eq_some.mp ho
    cases hw
    rw [heq] at h
    have hfree : ¬(m.locks lk).locked ≠ 0 := fun hne => hlk ((h.locked lk).mp hne)
    exact ⟨_, if_neg hfree, by rw [heq]; exact h.xchg hpos hlk, by rw [heq]; exact Finset.subset_insert _ _, rfl, rfl, rfl, rfl⟩
  | setCpu lk cpu =>
    cases cpu with
    | none =>
      obtain ⟨heq, hw⟩ := Option.ite_none_right_eq_some.mp ho
      cases hw
      rw [heq] at h
      exact ⟨_, rfl, h.clearCpu lk, Finset.erase_subset _ _, rfl, rfl, rfl, rfl⟩
    | some cpu =>
      obtain ⟨⟨hcpu, heq⟩, hw⟩ := Option.ite_none_right_eq_some.mp ho
      cases hw
      rw [heq] at h
      exact ⟨_, rfl, by rw [hcpu, heq]; exact h.setCpu, Finset.Subset.refl _, rfl, rfl, rfl, rfl⟩
  | unlock lk =>
    obtain ⟨heq, hw⟩ := Option.ite_none_right_eq_some.mp ho
    cases hw
    rw [heq] at h
    exact ⟨_, rfl, by rw [heq]; exact h.unlock, Finset.Subset.refl _, heq, rfl, rfl, rfl⟩

omit [DecidableEq L] in
/-- Outside of `pushcli` the flag can be set. -/
theorem holds_flag {m : Machine (Lock L)} {flag b r : Bool} {held mine : Finset (Lock L)} (h : Holds flag 0 held mine r m) :
    Holds b 0 held mine r { m with interrupts := b } :=
  { h with
    first := fun _ => rfl
    nested := fun hpos => absurd hpos (Nat.lt_irrefl 0) }

section
variable (h : Inv s) (hfits : Fits v s)
include h hfits

/-- An action that changes nothing but the machine -/
theorem Inv.machine {m : Machine (Lock L)} (hh : Holds w.flag w.n w.held w.mine w.r m) (hmine : w.mine ⊆ w.held)
    (hheld : w.held = v.held) (hproc : w.proc = v.proc) (hstatus : w.status = v.status) (hnext : w.next = v.next)
    (hquiet : w.Quiet s.cur) (hwp : wp s.cur (Done s.cur) k w) : Inv ({ s with m := m }.goto k) := by
  refine h.stay rfl rfl rfl (fun _ _ => rfl) (v := w) ?_ hwp h.running ⟨h.queued.blocked, h.queued.nodup, h.queued.apart⟩
  refine ⟨hh, hmine, hfits.held.trans hheld.symm, hfits.proc.trans hproc.symm, fun p hp => ?_, hquiet, fun hcur => ?_, fun p hp => ?_⟩
  · rw [hstatus]
    exact hfits.status p hp
  · rw [hproc, hnext]
    exact hfits.own hcur
  · exact hfits.next p (by rw [← hnext]; exact hp)

/-- An action that changes nothing -/
theorem Inv.nothing (hwp : wp s.cur (Done s.cur) k v) : Inv (s.goto k) :=
  h.machine hfits hfits.holds hfits.mine rfl rfl rfl rfl hfits.quiet hwp

/-- An action that sets the status of the process of the CPU, which was running, and may change the queues of the channels -/
theorem Inv.setStatus {st : Cpu.EnvStatus} {queue : C → List P} (hproc : s.proc = some p) (hpos : 0 < v.n)
    (hrunning : v.status = .running) (hst : st ≠ .running) (hqueued : Queued { s.setStatus p st with queue := queue })
    (hwp : wp s.cur (Done s.cur) k { v with status := st }) : Inv ({ s.setStatus p st with queue := queue }.goto k) := by
  have hold := hfits.status p hproc
  refine h.stay rfl rfl rfl (fun _ _ => rfl) (v := { v with status := st }) ?_ hwp (fun q hq => ?_) hqueued
  · refine ⟨hfits.holds, hfits.mine, hfits.held, hfits.proc, fun q hq => ?_, quiet_of_pos hpos, hfits.own, fun q hq => ?_⟩
    · obtain rfl := Option.some.inj (hproc.symm.trans hq)
      exact Function.update_self ..
    · have hready := hfits.next q hq
      have hne : q ≠ p := by
        rintro rfl
        rw [hold, hrunning] at hready
        cases hready
      exact (Function.update_of_ne hne _ _).trans hready
  · by_cases heq : q = p
    · subst heq
      have hq' : Function.update s.status q st q = .running := hq
      rw [Function.update_self] at hq'
      exact absurd hq' hst
    · have hq' : Function.update s.status p st q = .running := hq
      rw [Function.update_of_ne heq] at hq'
      exact h.running q hq'

/-- An action that makes a process ready that is not running, and may change the queues of the channels -/
theorem Inv.makeReady {queue : C → List P} (hcalm : v.Calm s.cur) (hq : s.status p ≠ .running)
    (hqueued : Queued { s.setStatus p .ready with queue := queue }) (hwp : wp s.cur (Done s.cur) k v) :
    Inv ({ s.setStatus p .ready with queue := queue }.goto k) := by
  refine h.stay rfl rfl rfl (fun _ _ => rfl) (v := v) ?_ hwp (fun q hrun => ?_) hqueued
  · refine ⟨hfits.holds, hfits.mine, hfits.held, hfits.proc, fun q hproc => ?_, hfits.quiet, hfits.own, fun q hnext => ?_⟩
    · have hcur : s.cur ≠ none := by
        rw [← hcalm.proc, ← hfits.proc]
        exact fun hnone => Option.some_ne_none q (hproc.symm.trans hnone)
      have hold := hfits.status q hproc
      have hne : q ≠ p := by
        rintro rfl
        exact hq (hold.trans (hcalm.running hcur))
      exact (Function.update_of_ne hne _ _).trans hold
    · have hnone := hcalm.next
      rw [hnext] at hnone
      exact absurd hnone (Option.some_ne_none q)
  · have hrun' : Function.update s.status p .ready q = .running := hrun
    by_cases heq : q = p
    · subst heq
      rw [Function.update_self] at hrun'
      cases hrun'
    · rw [Function.update_of_ne heq] at hrun'
      exact h.running q hrun'

end

/-! ### The queues -/

namespace Queued

variable {st : Cpu.EnvStatus} {c : C}

omit [DecidableEq L] in
theorem setStatus (h : Queued s) (hold : s.status p ≠ .blocked) (hst : st ≠ .blocked) :
    Queued { s.setStatus p st with queue := s.queue } := by
  refine ⟨fun q => ?_, h.nodup, h.apart⟩
  show (∃ c, q ∈ s.queue c) ↔ Function.update s.status p st q = .blocked
  rw [h.blocked q]
  by_cases heq : q = p
  · subst heq
    rw [Function.update_self]
    exact ⟨fun hb => absurd hb hold, fun hb => absurd hb hst⟩
  · rw [Function.update_of_ne heq]

variable [DecidableEq C]

omit [DecidableEq L] in
theorem block (h : Queued s) (hold : s.status p ≠ .blocked) :
    Queued { s.setStatus p .blocked with queue := Function.update s.queue c (p :: s.queue c) } := by
  have hout : ∀ c, p ∉ s.queue c := fun c hin => hold ((h.blocked p).mp ⟨c, hin⟩)
  have hmem : ∀ q c', q ∈ Function.update s.queue c (p :: s.queue c) c' ↔ (q = p ∧ c' = c) ∨ q ∈ s.queue c' := fun q c' => by
    by_cases heq : c' = c
    · subst heq
      rw [Function.update_self, List.mem_cons]
      exact or_congr (and_iff_left rfl).symm Iff.rfl
    · rw [Function.update_of_ne heq]
      exact ⟨.inr, fun hor => hor.resolve_left fun hand => heq hand.2⟩
  refine ⟨fun q => ?_, fun c' => ?_, fun c₁ c₂ q h₁ h₂ => ?_⟩
  · show (∃ c', q ∈ Function.update s.queue c (p :: s.queue c) c') ↔ Function.update s.status p .blocked q = .blocked
    by_cases heq : q = p
    · subst heq
      rw [Function.update_self]
      exact ⟨fun _ => rfl, fun _ => ⟨c, (hmem q c).mpr (.inl ⟨rfl, rfl⟩)⟩⟩
    · rw [Function.update_of_ne heq, ← h.blocked q]
      exact exists_congr fun c' => (hmem q c').trans ⟨fun hor => hor.resolve_left fun hand => heq hand.1, .inr⟩
  · show (Function.update s.queue c (p :: s.queue c) c').Nodup
    by_cases heq : c' = c
    · subst heq
      rw [Function.update_self]
      exact List.nodup_cons.mpr ⟨hout c', h.nodup c'⟩
    · rw [Function.update_of_ne heq]
      exact h.nodup c'
  · rcases (hmem q c₁).mp h₁ with ⟨hq, hc⟩ | hin₁
    · rcases (hmem q c₂).mp h₂ with ⟨-, hc'⟩ | hin₂
      · exact hc.trans hc'.symm
      · exact absurd (hq ▸ hin₂) (hout c₂)
    · rcases (hmem q c₂).mp h₂ with ⟨hq, -⟩ | hin₂
      · exact absurd (hq ▸ hin₁) (hout c₁)
      · exact h.apart c₁ c₂ q hin₁ hin₂

omit [DecidableEq L] in
theorem wake (h : Queued s) (hlast : (s.queue c).getLast? = some p) :
    Queued { s.setStatus p .ready with queue := Function.update s.queue c (s.queue c).dropLast } := by
  obtain ⟨rest, hrest⟩ := List.getLast?_eq_some_iff.mp hlast
  have hnodup := h.nodup c
  rw [hrest] at hnodup
  have hout : p ∉ rest := fun hin => (List.nodup_append.mp hnodup).2.2 p hin p (List.mem_singleton_self p) rfl
  have hmem : ∀ q c', q ∈ Function.update s.queue c (s.queue c).dropLast c' ↔ q ≠ p ∧ q ∈ s.queue c' := fun q c' => by
    by_cases heq : c' = c
    · subst heq
      rw [Function.update_self, hrest, List.dropLast_concat, List.mem_append, List.mem_singleton]
      exact ⟨fun hin => ⟨fun hqp => hout (hqp ▸ hin), .inl hin⟩, fun hand => hand.2.resolve_right hand.1⟩
    · rw [Function.update_of_ne heq]
      refine ⟨fun hin => ⟨fun hqp => heq ?_, hin⟩, And.right⟩
      subst hqp
      exact h.apart c' c q hin (by rw [hrest]; exact List.mem_append_right _ (List.mem_singleton_self q))
  refine ⟨fun q => ?_, fun c' => ?_, fun c₁ c₂ q h₁ h₂ => h.apart c₁ c₂ q ((hmem q c₁).mp h₁).2 ((hmem q c₂).mp h₂).2⟩
  · show (∃ c', q ∈ Function.update s.queue c (s.queue c).dropLast c') ↔ Function.update s.status p .ready q = .blocked
    by_cases heq : q = p
    · subst heq
      rw [Function.update_self]
      exact ⟨fun ⟨c', hin⟩ => absurd rfl ((hmem q c').mp hin).1, fun hb => by cases hb⟩
    · rw [Function.update_of_ne heq, ← h.blocked q]
      exact exists_congr fun c' => (hmem q c').trans (and_iff_right heq)
  · show (Function.update s.queue c (s.queue c).dropLast c').Nodup
    by_cases heq : c' = c
    · subst heq
      rw [Function.update_self]
      exact (h.nodup c').sublist (List.dropLast_sublist _)
    · rw [Function.update_of_ne heq]
      exact h.nodup c'

end Queued

/-! ### One piece of code -/

section
variable [DecidableEq C]

/-- What is to be shown of an action: it is possible, and keeps the invariant. -/
def Goes (s : Kernel P L C) (k : List (Act P L C)) (a : Act P L C) : Prop := ∃ t, s.act k a = some t ∧ Inv t

variable (h : Inv s) (hfits : Fits v s)
include h hfits

theorem goes_op {o : Op (Lock L)} (hpre : pre s.cur (.op o : Act P L C) (wp s.cur (Done s.cur) k) v) : Goes s k (.op o) := by
  obtain ⟨w, ho, hquiet, hwp⟩ := hpre
  obtain ⟨m, hm, hh, hmine, hheld, hproc, hstatus, hnext⟩ := op_sound hfits.holds hfits.mine ho
  refine ⟨_, by rw [act, hm]; rfl, ?_⟩
  refine h.stay rfl rfl rfl (fun thread hne => Function.update_of_ne hne _ _) (v := w) ?_ hwp h.running
    ⟨h.queued.blocked, h.queued.nodup, h.queued.apart⟩
  refine ⟨hh, hmine, ?_, hfits.proc.trans hproc.symm, fun p hp => ?_, hquiet, fun hcur => ?_, fun p hp => ?_⟩
  · show Function.update s.held s.cur (heldAfter (s.held s.cur) o) s.cur = w.held
    rw [Function.update_self, hheld, hfits.held]
  · rw [hstatus]
    exact hfits.status p hp
  · rw [hproc, hnext]
    exact hfits.own hcur
  · exact hfits.next p (by rw [← hnext]; exact hp)

theorem goes_setStatus {st : Cpu.EnvStatus} (hpre : pre s.cur (.setStatus st : Act P L C) (wp s.cur (Done s.cur) k) v) :
    Goes s k (.setStatus st) := by
  obtain ⟨hsome, hpos, hrunning, hst, hblocked, hwp⟩ := hpre
  obtain ⟨p, hp⟩ := Option.ne_none_iff_exists'.mp hsome
  have hproc := hfits.proc.trans hp
  have hold : s.status p ≠ .blocked := by
    rw [hfits.status p hproc, hrunning]
    decide
  refine ⟨_, by rw [act, hproc]; rfl, ?_⟩
  exact h.setStatus hfits hproc hpos hrunning hst (h.queued.setStatus hold hblocked) hwp

theorem goes_block {c : C} (hpre : pre s.cur (.block c : Act P L C) (wp s.cur (Done s.cur) k) v) : Goes s k (.block c) := by
  obtain ⟨hsome, hpos, hrunning, hwp⟩ := hpre
  obtain ⟨p, hp⟩ := Option.ne_none_iff_exists'.mp hsome
  have hproc := hfits.proc.trans hp
  have hold : s.status p ≠ .blocked := by
    rw [hfits.status p hproc, hrunning]
    decide
  refine ⟨_, by rw [act, hproc]; rfl, ?_⟩
  exact h.setStatus hfits hproc hpos hrunning (by decide) (h.queued.block hold) hwp

theorem goes_run (hpre : pre s.cur (.run p : Act P L C) (wp s.cur (Done s.cur) k) v) : Goes s k (.run p) := by
  obtain ⟨hpos, hp, hready, hwp⟩ := hpre
  have hproc := hfits.proc.trans hp
  have hold := hfits.status p hproc
  refine ⟨_, rfl, ?_⟩
  refine h.stay rfl rfl rfl (fun _ _ => rfl) (v := { v with status := .running, next := none }) ?_ hwp (fun q hq => ?_) ?_
  · refine ⟨hfits.holds, hfits.mine, hfits.held, hfits.proc, fun q hq => ?_, quiet_of_pos hpos, fun hcur => ?_, fun q hq => ?_⟩
    · obtain rfl := Option.some.inj (hproc.symm.trans hq)
      exact Function.update_self ..
    · exact ⟨(hfits.own hcur).1, rfl⟩
    · cases hq
  · by_cases heq : q = p
    · rw [heq]
      exact hproc
    · have hq' : Function.update s.status p .running q = .running := hq
      rw [Function.update_of_ne heq] at hq'
      exact h.running q hq'
  · refine h.queued.setStatus ?_ (by decide)
    rw [hold, hready]
    decide

theorem goes_newToReady (place : Placement (Lock L))
    (hpre : pre s.cur (.newToReady p : Act P L C) (wp s.cur (Done s.cur) k) v) : Goes s k (.newToReady p) := by
  obtain ⟨hb, hq, hcalm, hwp⟩ := hpre
  by_cases hnew : s.status p = .new
  · refine ⟨_, if_pos hnew, h.makeReady hfits hcalm (by rw [hnew]; decide) ?_ ?_⟩
    · exact h.queued.setStatus (by rw [hnew]; decide) (by decide)
    · exact wp_insideQ place hb hq (wp_insideQ place ⟨hb.n, hb.mine⟩ hq (hwp true))
  · exact ⟨_, if_neg hnew, h.nothing hfits (hwp v.r)⟩

theorem goes_wakeOne (place : Placement (Lock L)) {c : C}
    (hpre : pre s.cur (.wakeOne c : Act P L C) (wp s.cur (Done s.cur) k) v) : Goes s k (.wakeOne c) := by
  obtain ⟨hb, hq, hcalm, hwp⟩ := hpre
  cases hlast : (s.queue c).getLast? with
  | none => exact ⟨_, by rw [act, hlast], h.nothing hfits (hwp v.r)⟩
  | some q =>
    have hblocked := (h.queued.blocked q).mp ⟨c, List.mem_of_getLast? hlast⟩
    refine ⟨_, by rw [act, hlast], h.makeReady hfits hcalm (by rw [hblocked]; decide) (h.queued.wake hlast) ?_⟩
    exact wp_insideQ place hb hq (hwp true)

theorem goes_wakeAll (place : Placement (Lock L)) {c : C}
    (hpre : pre s.cur (.wakeAll c : Act P L C) (wp s.cur (Done s.cur) k) v) : Goes s k (.wakeAll c) := by
  obtain ⟨hb, hq, hcalm, hwp⟩ := hpre
  cases hlast : (s.queue c).getLast? with
  | none => exact ⟨_, by rw [act, hlast], h.nothing hfits (hwp v.r)⟩
  | some q =>
    have hblocked := (h.queued.blocked q).mp ⟨c, List.mem_of_getLast? hlast⟩
    refine ⟨_, by rw [act, hlast], h.makeReady hfits hcalm (by rw [hblocked]; decide) (h.queued.wake hlast) ?_⟩
    exact wp_insideQ place hb hq ⟨⟨hb.n, hb.mine⟩, hq, ⟨hcalm.proc, hcalm.running, hcalm.next⟩, hwp⟩

theorem goes_contextSwitch (hpre : pre s.cur (.contextSwitch : Act P L C) (wp s.cur (Done s.cur) k) v) :
    Goes s k .contextSwitch := by
  obtain ⟨hcur, hproc, hm, hstatus, hwp⟩ := hpre
  obtain ⟨p, hp⟩ := Option.ne_none_iff_exists'.mp hcur
  have hsp : s.proc = some p := hfits.proc.trans (hproc.trans hp)
  have hheld : s.held s.cur = {.qlock} := hfits.held.trans hm.held
  have hnone : s.held none = ∅ := h.others none fun heq => Option.some_ne_none p (hp.symm.trans heq.symm)
  obtain ⟨hview, hholds⟩ := hfits.meeting hm (hproc.trans hp) (hfits.own hcur).2
  rw [hp] at hwp
  refine ⟨{ s.goto k with saved := Function.update s.saved p (some (s.m.intena, s.m.r)) }.handOver none,
    by rw [act, hsp, Option.bind_some, if_pos hp], ⟨between v.flag {.qlock} v.r (some p) v.status, ?_, ?_⟩, fun q _ => ?_,
    fun q hq => ?_, fun thread hne => ?_, h.running, ⟨h.queued.blocked, h.queued.nodup, h.queued.apart⟩⟩
  · refine ⟨by rw [between, Finset.card_singleton]; exact hholds, Finset.Subset.refl _, ?_, hsp, fun q hq => ?_, ?_,
      fun hne => absurd rfl hne, fun q hq => absurd hq.symm (Option.some_ne_none q)⟩
    · change Function.update (Function.update s.held s.cur ((s.held s.cur).erase .qlock)) none (insert .qlock (s.held none)) none = _
      rw [Function.update_self, hnone]
      rfl
    · obtain rfl := Option.some.inj (hsp.symm.trans hq)
      exact hfits.status p hsp
    · exact quiet_of_pos (Nat.succ_pos _)
  · show wp none (Done none) (Function.update s.cont s.cur k none) _
    rw [Function.update_of_ne (by rw [hp]; exact (Option.some_ne_none p).symm)]
    exact h.scheduler p hp v.flag v.r v.status hstatus
  · intro flag r hx
    show wp (some q) (Done (some q)) (Function.update s.cont s.cur k (some q)) _
    by_cases heq : q = p
    · subst heq
      have hsaved := hx (s.m.intena, s.m.r) (Function.update_self ..)
      rw [(hholds.nested Nat.one_pos).2, hholds.r] at hsaved
      obtain ⟨hflag, hr⟩ := Prod.mk.inj hsaved
      rw [hp, Function.update_self, ← hflag, ← hr, ← hview]
      exact hwp
    · have hne : some q ≠ s.cur := by
        rw [hp]
        exact fun hs => heq (Option.some.inj hs)
      rw [Function.update_of_ne hne]
      exact h.parked q hne.symm flag r fun x hsome => hx x ((Function.update_of_ne heq _ _).trans hsome)
  · exact absurd hq.symm (Option.some_ne_none q)
  · change thread ≠ none at hne
    show Function.update (Function.update s.held s.cur _) none _ thread = ∅
    rw [Function.update_of_ne hne]
    by_cases heq : thread = s.cur
    · rw [heq, Function.update_self]
      show (s.held s.cur).erase .qlock = ∅
      rw [hheld, Finset.erase_singleton]
    · rw [Function.update_of_ne heq]
      exact h.others thread heq

theorem goes_switchTo (hpre : pre s.cur (.switchTo p : Act P L C) (wp s.cur (Done s.cur) k) v) :
    Goes s k (.switchTo p) := by
  obtain ⟨hcur, hm, hproc, hstatus, hnext, hwp⟩ := hpre
  have hsp : s.proc = some p := hfits.proc.trans hproc
  have hheld : s.held s.cur = {.qlock} := hfits.held.trans hm.held
  have hnone : s.held (some p) = ∅ := h.others (some p) (by rw [hcur]; exact Option.some_ne_none p)
  obtain ⟨hview, hholds⟩ := hfits.meeting hm hproc hnext
  have hne : ∀ q : P, some q ≠ s.cur := fun q => by
    rw [hcur]
    exact Option.some_ne_none q
  obtain ⟨flag, r, hsaved, hrestore⟩ : ∃ flag r, (∀ x, s.saved p = some x → x = (flag, r)) ∧
      Holds flag 1 {.qlock} {.qlock} r (restore s.m (s.saved p)) := by
    have hoff := (hholds.nested Nat.one_pos).1
    have hrest : ∀ flag r, Holds flag 1 {.qlock} {.qlock} r { s.m with intena := flag, r := r } := fun flag r =>
      { hholds with
        first := fun hzero => absurd hzero Nat.one_ne_zero
        nested := fun _ => ⟨hoff, rfl⟩
        r := rfl }
    cases hs : s.saved p with
    | none => exact ⟨s.m.intena, false, fun x hx => absurd hx.symm (Option.some_ne_none x), hrest s.m.intena false⟩
    | some x => exact ⟨x.1, x.2, fun y hy => (Option.some.inj hy).symm, hrest x.1 x.2⟩
  refine ⟨{ s.goto k with m := restore s.m (s.saved p) }.handOver (some p), by rw [act, if_pos hcur],
    ⟨between flag {.qlock} r (some p) .running, ?_, ?_⟩, fun q _ => ?_, fun q hq => ?_, fun thread hth => ?_,
    h.running, ⟨h.queued.blocked, h.queued.nodup, h.queued.apart⟩⟩
  · refine ⟨by rw [between, Finset.card_singleton]; exact hrestore, Finset.Subset.refl _, ?_, hsp, fun q hq => ?_, ?_,
      fun _ => ⟨rfl, rfl⟩, fun q hq => absurd hq.symm (Option.some_ne_none q)⟩
    · change Function.update (Function.update s.held s.cur ((s.held s.cur).erase .qlock)) (some p) (insert .qlock (s.held (some p))) (some p) = _
      rw [Function.update_self, hnone]
      rfl
    · exact (hfits.status q hq).trans hstatus
    · exact quiet_of_pos (Nat.succ_pos _)
  · show wp (some p) (Done (some p)) (Function.update s.cont s.cur k (some p)) _
    rw [Function.update_of_ne (hne p)]
    exact h.parked p (hne p).symm flag r hsaved
  · intro flag r hx
    show wp (some q) (Done (some q)) (Function.update s.cont s.cur k (some q)) _
    rw [Function.update_of_ne (hne q)]
    exact h.parked q (hne q).symm flag r hx
  · obtain rfl := Option.some.inj hq
    intro flag r st hst
    show wp none (Done none) (Function.update s.cont s.cur k none) _
    have hwp := hwp flag r st hst
    rw [hcur, hview] at hwp
    rwa [hcur, Function.update_self]
  · change thread ≠ some p at hth
    show Function.update (Function.update s.held s.cur _) (some p) _ thread = ∅
    rw [Function.update_of_ne hth]
    by_cases heq : thread = s.cur
    · rw [heq, Function.update_self]
      show (s.held s.cur).erase .qlock = ∅
      rw [hheld, Finset.erase_singleton]
    · rw [Function.update_of_ne heq]
      exact h.others thread heq

theorem goes_yieldIfProc (place : Placement (Lock L))
    (hpre : pre s.cur (.yieldIfProc : Act P L C) (wp s.cur (Done s.cur) k) v) : Goes s k .yieldIfProc := by
  obtain ⟨hb, hheld, hcalm, hwp⟩ := hpre
  refine ⟨_, rfl, h.nothing hfits ?_⟩
  cases hcur : s.cur with
  | none =>
    have hproc : s.proc.isSome = false := by
      rw [hfits.proc, hcalm.proc, hcur]
      rfl
    rw [hcur] at hwp
    rw [hproc]
    exact hwp v.r
  | some p =>
    have hproc : s.proc.isSome = true := by
      rw [hfits.proc, hcalm.proc, hcur]
      rfl
    rw [hcur] at hwp hcalm
    have heq := eq_between hb hcalm
    rw [hheld, hcalm.running (Option.some_ne_none p)] at heq
    have hwp := hwp true
    rw [heq] at hwp
    rw [hproc, heq]
    exact wp_yield place hwp

theorem goes_afterSwitch (hpre : pre s.cur (.afterSwitch : Act P L C) (wp s.cur (Done s.cur) k) v) :
    Goes s k .afterSwitch := by
  obtain ⟨hcur, hm, hsome, hstatus, hready, hwp⟩ := hpre
  obtain ⟨p, hp⟩ := Option.ne_none_iff_exists'.mp hsome
  have hproc := hfits.proc.trans hp
  have hold := hfits.status p hproc
  have hn := hm.n
  refine ⟨s.goto (if s.status p = .ready then k else setCpuProc none ++ k), ?_, h.nothing hfits ?_⟩
  · rw [act, hproc, Option.bind_some, if_neg (by rw [hold]; exact hstatus)]
  · split
    case isTrue hr => exact hready (by rw [← hold]; exact hr)
    case isFalse =>
      refine wp_pushcli (by omega) ⟨hcur, .inr hstatus, ?_⟩
      exact wp_popcli (n := v.n) rfl (by omega) (.inr (by omega)) (quiet_of_pos (show 0 < v.n by omega)) hwp

theorem goes_setProc {proc : Option P} (hpre : pre s.cur (.setProc proc : Act P L C) (wp s.cur (Done s.cur) k) v) :
    Goes s k (.setProc proc) := by
  have hnone : (v.proc = none ∨ v.status ≠ .running) → ∀ p, s.status p ≠ .running := fun hor p hp => by
    have hproc := h.running p hp
    rcases hor with hv | hv
    · rw [hfits.proc, hv] at hproc
      exact Option.some_ne_none p hproc.symm
    · exact hv ((hfits.status p hproc).symm.trans hp)
  cases proc with
  | none =>
    obtain ⟨hcur, hor, hwp⟩ := hpre
    refine ⟨_, rfl, h.stay (u := { s with proc := none }) rfl rfl rfl (fun _ _ => rfl) (v := { v with proc := none }) ?_ hwp
      (fun p hp => absurd hp (hnone hor p)) ⟨h.queued.blocked, h.queued.nodup, h.queued.apart⟩⟩
    refine ⟨hfits.holds, hfits.mine, hfits.held, rfl, fun p hp => absurd hp.symm (Option.some_ne_none p), fun hzero => ?_,
      fun hne => absurd hcur hne, hfits.next⟩
    have hcalm := hfits.quiet hzero
    exact ⟨hcur.symm, hcalm.running, hcalm.next⟩
  | some p =>
    obtain ⟨hcur, hor, hpos, hnext, hwp⟩ := hpre
    refine ⟨_, rfl, h.stay (u := { s with proc := some p }) rfl rfl rfl (fun _ _ => rfl)
      (v := { v with proc := some p, status := .ready }) ?_ hwp (fun q hq => absurd hq (hnone hor q))
      ⟨h.queued.blocked, h.queued.nodup, h.queued.apart⟩⟩
    refine ⟨hfits.holds, hfits.mine, hfits.held, rfl, fun q hq => ?_, quiet_of_pos hpos, fun hne => absurd hcur hne, hfits.next⟩
    obtain rfl := Option.some.inj hq
    exact hfits.next p hnext

theorem goes_getIntoPrompt (hpre : pre s.cur (.getIntoPrompt : Act P L C) (wp s.cur (Done s.cur) k) v) :
    Goes s k .getIntoPrompt := by
  obtain ⟨hcur, hb, hheld, hproc⟩ := hpre
  have hholds := hfits.holds
  have hmine := hb.mine
  have hn := hb.n
  rw [hheld] at hmine hn
  rw [hheld, hmine] at hholds
  have hsp := hfits.proc.trans hproc
  refine ⟨_, rfl, h.stay (u := { s with m := { s.m with interrupts := false, ncli := 0, intena := false }, proc := none }) rfl rfl
    rfl (fun _ _ => rfl) (v := between false ∅ v.r none v.status) ?_ ?_ (fun p hp => ?_)
    ⟨h.queued.blocked, h.queued.nodup, h.queued.apart⟩⟩
  · refine ⟨?_, Finset.Subset.refl _, hfits.held.trans hheld, rfl, fun p hp => absurd hp.symm (Option.some_ne_none p),
      fun _ => ⟨hcur.symm, fun hne => absurd hcur hne, rfl⟩, fun hne => absurd hcur hne, fun p hp => absurd hp.symm (Option.some_ne_none p)⟩
    exact
      { ncli := rfl
        first := fun _ => rfl
        nested := fun hpos => absurd hpos (Nat.lt_irrefl 0)
        locked := hholds.locked
        cpu := hholds.cpu
        masks := fun hne => absurd hne Finset.not_nonempty_empty
        r := hholds.r }
  · exact ⟨between_between, ⟨hcur.symm, fun hne => absurd hcur hne, rfl⟩, fun _ => ⟨rfl, rfl⟩⟩
  · have hrun := h.running p hp
    rw [hsp] at hrun
    exact absurd hrun.symm (Option.some_ne_none p)

/-- Every action whose precondition holds is possible and keeps the invariant. -/
theorem goes (place : Placement (Lock L)) (hnext : a ≠ .schedNext) (hpre : pre s.cur a (wp s.cur (Done s.cur) k) v) :
    Goes s k a := by
  have hholds := hfits.holds
  cases a with
  | op o => exact goes_op h hfits hpre
  | sti | cli =>
    obtain ⟨hn, hwp⟩ := hpre
    rw [hn] at hholds
    exact ⟨_, rfl, h.machine hfits (w := { v with n := 0, flag := _ }) (holds_flag hholds) hfits.mine rfl rfl rfl rfl
      (fun _ => ⟨(hfits.quiet hn).proc, (hfits.quiet hn).running, (hfits.quiet hn).next⟩) (by rw [← hn]; exact hwp)⟩
  | assertDisabled =>
    obtain ⟨hor, hwp⟩ := hpre
    have hoff : s.m.interrupts = false := by
      rcases Nat.eq_zero_or_pos v.n with hzero | hpos
      · rw [hholds.first hzero]
        exact hor.resolve_left (by omega)
      · exact (hholds.nested hpos).1
    exact ⟨_, if_neg (by rw [hoff]; exact Bool.false_ne_true), h.nothing hfits hwp⟩
  | assertProc =>
    obtain ⟨hsome, hwp⟩ := hpre
    obtain ⟨p, hp⟩ := Option.ne_none_iff_exists'.mp hsome
    exact ⟨s.goto k, by rw [act, hfits.proc, hp]; rfl, h.nothing hfits hwp⟩
  | assertRunning =>
    obtain ⟨hsome, hrunning, hwp⟩ := hpre
    obtain ⟨p, hp⟩ := Option.ne_none_iff_exists'.mp hsome
    have hproc := hfits.proc.trans hp
    exact ⟨s.goto k, by rw [act, hproc, Option.bind_some, if_pos ((hfits.status p hproc).trans hrunning)], h.nothing hfits hwp⟩
  | setProc proc => exact goes_setProc h hfits hpre
  | setStatus st => exact goes_setStatus h hfits hpre
  | run p => exact goes_run h hfits hpre
  | newToReady p => exact goes_newToReady h hfits place hpre
  | block c => exact goes_block h hfits hpre
  | wakeOne c => exact goes_wakeOne h hfits place hpre
  | wakeAll c => exact goes_wakeAll h hfits place hpre
  | checkSched =>
    obtain ⟨hn, hsome, hstatus, hwp⟩ := hpre
    obtain ⟨p, hp⟩ := Option.ne_none_iff_exists'.mp hsome
    have hproc := hfits.proc.trans hp
    have hoff := (hholds.nested (by omega)).1
    have hncli := hholds.ncli
    have hgo : ¬(s.m.ncli ≠ 1 ∨ s.status p = .running ∨ s.m.interrupts = true) := by
      rw [hncli, hn, hoff, hfits.status p hproc]
      exact fun hor => hor.elim (fun hne => hne rfl) fun hor => hor.elim hstatus Bool.false_ne_true
    exact ⟨s.goto k, by rw [act, hproc, Option.bind_some, if_neg hgo], h.nothing hfits hwp⟩
  | contextSwitch => exact goes_contextSwitch h hfits hpre
  | iret r =>
    obtain ⟨hn, hwp⟩ := hpre
    rw [hn] at hholds
    refine ⟨_, rfl, h.machine hfits (w := { v with n := 0, flag := true, r := r }) ?_ hfits.mine rfl rfl rfl rfl
      (fun _ => ⟨(hfits.quiet hn).proc, (hfits.quiet hn).running, (hfits.quiet hn).next⟩) (by rw [← hn]; exact hwp)⟩
    exact { holds_flag hholds with r := rfl }
  | yieldIfProc => exact goes_yieldIfProc h hfits place hpre
  | switchTo p => exact goes_switchTo h hfits hpre
  | afterSwitch => exact goes_afterSwitch h hfits hpre
  | schedNext => exact absurd rfl hnext
  | getIntoPrompt => exact goes_getIntoPrompt h hfits hpre

end

/-! ### Any run -/

section
variable [DecidableEq C] [Fintype P]

/-- An event that may come is possible and keeps the invariant. -/
theorem Inv.step (place : Placement (Lock L)) (h : Inv s) {e : Event P L C} (hok : s.ok e) : ∃ t, s.step e = some t ∧ Inv t := by
  obtain ⟨v, hfits, hwp⟩ := h.current
  cases e with
  | run =>
    obtain ⟨a, k, hk, hnext⟩ := hok
    rw [hk] at hwp
    obtain ⟨t, ht, hinv⟩ := goes h hfits place hnext hwp
    exact ⟨t, by rw [Kernel.step, hk]; exact ht, hinv⟩
  | interrupt user clock =>
    obtain ⟨hon, huser⟩ := hok
    obtain ⟨hb, hheld, hcalm, hflag⟩ := hfits.enabled hon
    have hgo := wp_interrupt place user clock (fun hu => (huser hu).1) hb hheld hcalm hflag hwp
    have hholds := hfits.holds
    have hn : v.n = 0 := by
      rw [hb.n, hheld]
      rfl
    rw [hn] at hholds
    exact ⟨_, rfl, h.machine hfits (w := { v with n := 0, flag := false }) (holds_flag hholds) hfits.mine rfl rfl rfl rfl
      (fun _ => ⟨hcalm.proc, hcalm.running, hcalm.next⟩) (by rw [← hn, hfits.holds.r]; exact hgo)⟩
  | schedNext choice =>
    have hhead : ∃ k, s.cont s.cur = .schedNext :: k := by
      cases choice with
      | none => exact hok.1
      | some p => exact hok.1
    obtain ⟨k, hk⟩ := hhead
    rw [hk] at hwp
    obtain ⟨hcur, hm, hready⟩ := hwp
    cases choice with
    | some p =>
      have hp : s.status p = .ready := hok.2
      have hor : v.proc = none ∨ v.status ≠ .running := by
        by_cases hnone : v.proc = none
        · exact .inl hnone
        · exact .inr (by rw [hready hnone]; decide)
      have hn := hm.n
      refine ⟨_, rfl, h.stay (u := s) rfl rfl rfl (fun _ _ => rfl) (v := { v with next := some p }) ?_ ?_ h.running h.queued⟩
      · exact ⟨hfits.holds, hfits.mine, hfits.held, hfits.proc, hfits.status, quiet_of_pos (show 0 < v.n by omega),
          fun hne => absurd hcur hne, fun q hq => by rw [← Option.some.inj hq]; exact hp⟩
      · rw [hcur]
        exact wp_dispatch place ⟨hm.n, hm.held, hm.mine⟩ hor rfl
    | none =>
      have hnone : v.proc = none := by
        by_contra hsome
        obtain ⟨p, hp⟩ := Option.ne_none_iff_exists'.mp hsome
        exact hok.2 p ((hfits.status p (hfits.proc.trans hp)).trans (hready hsome))
      have hholds := hfits.holds
      rw [hm.n, hm.held, hm.mine] at hholds
      refine ⟨_, rfl, h.stay (u := s) rfl rfl rfl (fun _ _ => rfl) (v := between v.flag {.qlock} v.r none v.status) ?_ ?_ h.running
        h.queued⟩
      · exact ⟨by rw [between, Finset.card_singleton]; exact hholds, Finset.Subset.refl _, hfits.held.trans hm.held,
          hfits.proc.trans hnone, hfits.status, quiet_of_pos (Nat.succ_pos _), fun hne => absurd hcur hne,
          fun q hq => absurd hq.symm (Option.some_ne_none q)⟩
      · rw [hcur]
        exact wp_noNext place
  | call c =>
    obtain ⟨hcur, hk, hc⟩ := hok
    obtain ⟨p, hp⟩ := Option.ne_none_iff_exists'.mp hcur
    rw [hk] at hwp
    have heq := eq_between hwp.between hwp.calm
    rw [hwp.calm.running hcur] at heq
    rw [hfits.held] at hc
    refine ⟨_, rfl, h.nothing hfits ?_⟩
    rw [heq, hp]
    exact Call.wp_code place hc
  | command p =>
    obtain ⟨hcur, hk, -⟩ := hok
    rw [hcur, hk] at hwp
    obtain ⟨hheld, hflag⟩ := hwp.prompt rfl
    have heq := eq_between hwp.between hwp.calm
    rw [hheld, hflag] at heq
    refine ⟨_, rfl, h.nothing hfits ?_⟩
    rw [heq, hcur]
    exact wp_command place

omit [Fintype P] [DecidableEq P] [DecidableEq C] in
theorem Inv.of_boot (place : Placement (Lock L)) (h : Boot s) : Inv s := by
  have hstatus : ∀ p, s.status p ≠ .running ∧ s.status p ≠ .blocked := fun p => by
    rcases h.status p with hs | hs <;> rw [hs] <;> decide
  refine ⟨⟨between false ∅ s.m.r none .new, ?_, ?_⟩, fun p _ flag r _ => ?_, fun p hp => ?_, fun thread _ => h.held thread,
    fun p hp => absurd hp (hstatus p).1, fun p => ?_, fun c => ?_, fun c c' p hp => ?_⟩
  · refine ⟨?_, Finset.Subset.refl _, h.held _, h.proc, fun p hp => ?_, fun _ => ?_, fun hne => absurd h.cur hne,
      fun p hp => absurd hp.symm (Option.some_ne_none p)⟩
    · exact
        { ncli := h.ncli
          first := fun _ => h.interrupts
          nested := fun hpos => absurd hpos (Nat.lt_irrefl 0)
          locked := fun lk => ⟨fun hne => absurd (h.free lk) hne, fun hin => absurd hin (Finset.notMem_empty lk)⟩
          cpu := fun lk hin => absurd hin (Finset.notMem_empty lk)
          masks := fun hne => absurd hne Finset.not_nonempty_empty
          r := rfl }
    · rw [h.proc] at hp
      exact absurd hp.symm (Option.some_ne_none p)
    · rw [h.cur]
      exact calm_none
  · rw [h.cur, h.prompt]
    exact ⟨between_between, calm_none, fun _ => ⟨rfl, rfl⟩⟩
  · rw [(h.context p).1]
    exact wp_envStart place
  · rw [h.cur] at hp
    exact absurd hp.symm (Option.some_ne_none p)
  · refine ⟨fun ⟨c, hin⟩ => ?_, fun hb => absurd hb (hstatus p).2⟩
    rw [h.queue c] at hin
    exact absurd hin List.not_mem_nil
  · rw [h.queue c]
    exact List.nodup_nil
  · rw [h.queue c] at hp
    exact absurd hp List.not_mem_nil

/-- What holds whenever the CPU is between two pieces of code. -/
structure Safe (s : Kernel P L C) : Prop where
  /-- The locks that are not free are those of the current thread; the others hold none. -/
  owner : ∀ thread lk, lk ∈ s.held thread ↔ thread = s.cur ∧ (s.m.locks lk).locked ≠ 0
  /-- Where an interrupt can come, `pushcli` is not called, no lock is held, and the process of the CPU is the thread's and runs. -/
  enabled : s.m.interrupts = true → s.m.ncli = 0 ∧ s.held s.cur = ∅ ∧ s.proc = s.cur ∧ ∀ p, s.cur = some p → s.status p = .running
  proc : ∀ p, s.cur = some p → s.proc = some p
  running : ∀ p, s.status p = .running → s.proc = some p
  queued : Queued s
  /-- The CPU goes from a thread to another with `qlock` and no other lock, and with interrupts disabled by this lock alone. -/
  switch : ∀ k, (s.cont s.cur = .contextSwitch :: k ∨ ∃ p, s.cont s.cur = .switchTo p :: k) →
    s.held s.cur = {.qlock} ∧ s.m.ncli = 1 ∧ s.m.interrupts = false

omit [Fintype P] [DecidableEq P] [DecidableEq C] in
theorem Inv.safe (h : Inv s) : Safe s := by
  obtain ⟨v, hfits, hwp⟩ := h.current
  have hholds := hfits.holds
  refine ⟨fun thread lk => ?_, fun hon => ?_, fun p hp => ?_, h.running, h.queued, fun k hk => ?_⟩
  · by_cases heq : thread = s.cur
    · subst heq
      rw [hfits.held, hholds.locked lk]
      exact (and_iff_right rfl).symm
    · rw [h.others thread heq]
      exact ⟨fun hin => absurd hin (Finset.notMem_empty lk), fun hand => absurd hand.1 heq⟩
  · obtain ⟨hb, hheld, hcalm, -⟩ := hfits.enabled hon
    refine ⟨?_, hfits.held.trans hheld, hfits.proc.trans hcalm.proc, fun p hp => ?_⟩
    · rw [hholds.ncli, hb.n, hheld]
      rfl
    · have hproc := hfits.proc.trans (hcalm.proc.trans hp)
      exact (hfits.status p hproc).trans (hcalm.running (by rw [hp]; exact Option.some_ne_none p))
  · have hown := (hfits.own (by rw [hp]; exact Option.some_ne_none p)).1
    exact hfits.proc.trans (hown.trans hp)
  · have hm : v.Meeting := by
      rcases hk with hk | ⟨p, hk⟩
      · rw [hk] at hwp
        exact hwp.2.2.1
      · rw [hk] at hwp
        exact hwp.2.1
    refine ⟨hfits.held.trans hm.held, ?_, (hholds.nested (by rw [hm.n]; exact Nat.one_pos)).1⟩
    rw [hholds.ncli, hm.n]
    rfl

/-- From the boot on, in every run: whatever ready process the scheduler chooses, at whatever piece of code interrupts come, and
    whatever the processes call with the locks that the functions ask for, nothing panics, no spinlock is waited for, and the CPU
    is in a safe state. -/
theorem handoff_safe (place : Placement (Lock L)) {s₀ : Kernel P L C} (hboot : Boot s₀)
    (h : Reach (Kernel.step (P := P) (L := L) (C := C)) ok s₀ s) : Safe s ∧ ∀ e, s.ok e → ∃ t, s.step e = some t := by
  have hinv : Inv s := h.invariant (Inv.of_boot place hboot) fun s e t hs hok he => by
    obtain ⟨t', ht', hinv⟩ := hs.step place hok
    obtain rfl := Option.some.inj (he.symm.trans ht')
    exact hinv
  refine ⟨hinv.safe, fun e hok => ?_⟩
  obtain ⟨t, ht, -⟩ := hinv.step place hok
  exact ⟨t, ht⟩

end

/-- Two locks, one behind the other -/
def oneMore : Placement (Lock Unit) where
  addr lk := if lk = .qlock then 0 else kspinlockSize
  fits lk := by
    rcases lk with - | ⟨⟨⟩⟩ <;> decide
  apart lk lk' hne := by
    rcases lk with - | ⟨⟨⟩⟩ <;> rcases lk' with - | ⟨⟨⟩⟩ <;> first | exact absurd rfl hne | decide

/-- Two new processes and the prompt -/
def twoNew : Kernel Bool Unit Unit where
  m := ⟨false, 0, false, fun _ => ⟨0, none⟩, false⟩
  proc := none
  status _ := .new
  queue _ := []
  cur := none
  cont thread := if thread = none then [] else envStart
  saved _ := none
  held _ := ∅

theorem twoNew_boot : Boot twoNew :=
  ⟨rfl, rfl, fun _ => rfl, rfl, fun _ => .inl rfl, fun _ => rfl, rfl, rfl, fun _ => ⟨rfl, rfl⟩, fun _ => rfl⟩

/-- One of the two is run from the prompt. -/
theorem handoff_safe_command : ∃ s, twoNew.step (.command true) = some s ∧ Safe s ∧ ∀ e, s.ok e → ∃ t, s.step e = some t :=
  ⟨_, rfl, handoff_safe oneMore twoNew_boot (Reach.init.step (.command true) ⟨rfl, rfl, rfl⟩ rfl)⟩

end Fos.Handoff
