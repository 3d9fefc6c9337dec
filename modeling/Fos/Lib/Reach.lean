import Mathlib.Logic.Function.Basic

/-! Partial step functions: the states that are reached under a condition on the steps taken, the
    execution of a list of events, the rules by which an invariant of one step is one of every run, what holds in all
    states of an execution, and steps that go through exactly under a condition. -/

namespace Fos.Lib

variable {σ ε : Type}

/-- The states reached from `s₀` by steps `step` that each meet `ok` in the state before the step. -/
inductive Reach (step : σ → ε → Option σ) (ok : σ → ε → Prop) (s₀ : σ) : σ → Prop
  | init : Reach step ok s₀ s₀
  | step {s t : σ} (e : ε) : Reach step ok s₀ s → ok s e → step s e = some t → Reach step ok s₀ t

theorem Reach.invariant {step : σ → ε → Option σ} {ok : σ → ε → Prop} {s₀ t : σ} {I : σ → Prop}
    (h : Reach step ok s₀ t) (h₀ : I s₀) (hs : ∀ s e t, I s → ok s e → step s e = some t → I t) : I t := by
  induction h with
  | init => exact h₀
  | step e _ hok he ih => exact hs _ e _ ih hok he

/-- The state after the events `es`, when every step is possible. -/
def exec (step : σ → ε → Option σ) (s : σ) : List ε → Option σ
  | [] => some s
  | e :: es => (step s e).bind fun t => exec step t es

@[simp] theorem exec_nil (step : σ → ε → Option σ) (s : σ) : exec step s [] = some s := rfl

theorem exec_cons {step : σ → ε → Option σ} {s u : σ} {e : ε} {es : List ε} :
    exec step s (e :: es) = some u ↔ ∃ t, step s e = some t ∧ exec step t es = some u := by
  simp [exec, Option.bind_eq_some_iff]

/-- A map of states that commutes with every step commutes with the execution. -/
theorem exec_map {step : σ → ε → Option σ} {φ : σ → σ} (hstep : ∀ s e, step (φ s) e = (step s e).map φ) (s : σ) (es : List ε) :
    exec step (φ s) es = (exec step s es).map φ := by
  induction es generalizing s with
  | nil => rfl
  | cons e es ih =>
    unfold exec
    rw [hstep]
    cases step s e with
    | none => rfl
    | some t => exact ih t

/-- The execution of a list of events reaches its states, under a condition that every step meets. -/
theorem Reach.of_exec {step : σ → ε → Option σ} {ok : σ → ε → Prop} {s₀ s t : σ} {es : List ε}
    (h : Reach step ok s₀ s) (he : exec step s es = some t)
    (hok : ∀ fs e gs u, es = fs ++ e :: gs → exec step s fs = some u → ok u e) : Reach step ok s₀ t := by
  induction es generalizing s with
  | nil =>
    cases he
    exact h
  | cons e es ih =>
    obtain ⟨u, hu, ht⟩ := exec_cons.mp he
    refine ih (h.step e (hok [] e es s rfl rfl) hu) ht fun fs f gs v hfs hv => ?_
    exact hok (e :: fs) f gs v (by rw [hfs]; rfl) (exec_cons.mpr ⟨u, hu, hv⟩)

/-- The execution of events that meet the condition in every state. -/
theorem Reach.of_exec_all {step : σ → ε → Option σ} {ok : σ → ε → Prop} {s t : σ} {es : List ε}
    (he : exec step s es = some t) (hok : ∀ e ∈ es, ∀ u, ok u e) : Reach step ok s t := by
  refine Reach.init.of_exec he fun fs e gs u hes _ => hok e ?_ u
  rw [hes]
  exact List.mem_append_right _ (List.mem_cons_self ..)

/-- Steps of which nothing is asked. -/
theorem Reach.of_exec_any {step : σ → ε → Option σ} {s t : σ} {es : List ε} (he : exec step s es = some t) :
    Reach step (fun _ _ => True) s t :=
  .of_exec_all he fun _ _ _ => trivial

/-- What every step keeps, the execution of a list keeps. -/
theorem exec_keeps {step : σ → ε → Option σ} {s t : σ} {es : List ε} {I : σ → Prop} (he : exec step s es = some t)
    (hs : ∀ s e t, I s → step s e = some t → I t) (h : I s) : I t :=
  (Reach.of_exec_any he).invariant h fun s e t h _ => hs s e t h

/-- Steps that are possible under the invariant and keep it can be taken one after the other. -/
theorem exec_total {step : σ → ε → Option σ} {I : σ → Prop} {s : σ} {es : List ε} (h : I s)
    (hs : ∀ s e, I s → e ∈ es → ∃ t, step s e = some t ∧ I t) : ∃ t, exec step s es = some t ∧ I t := by
  induction es generalizing s with
  | nil => exact ⟨s, rfl, h⟩
  | cons e es ih =>
    obtain ⟨u, hu, hI⟩ := hs s e h List.mem_cons_self
    obtain ⟨t, ht, htI⟩ := ih hI fun s f hs' hf => hs s f hs' (List.mem_cons_of_mem e hf)
    exact ⟨t, exec_cons.mpr ⟨u, hu, ht⟩, htI⟩

/-! ### What holds all the time -/

/-- The events `es` can be taken from `s`; `P` holds in every state on the way and `Q` in the last. -/
def Throughout (step : σ → ε → Option σ) (P Q : σ → Prop) : List ε → σ → Prop
  | [], s => P s ∧ Q s
  | e :: es, s => P s ∧ ∃ t, step s e = some t ∧ Throughout step P Q es t

namespace Throughout

variable {step : σ → ε → Option σ} {P Q R : σ → Prop} {s u : σ} {es fs : List ε}

theorem append (h : Throughout step P Q es s) (hQ : ∀ t, Q t → Throughout step P R fs t) : Throughout step P R (es ++ fs) s := by
  induction es generalizing s with
  | nil => exact hQ s h.2
  | cons e es ih =>
    obtain ⟨hP, t, ht, hrest⟩ := h
    exact ⟨hP, t, ht, ih hrest⟩

theorem imp (h : Throughout step P Q es s) (hQ : ∀ t, Q t → R t) : Throughout step P R es s := by
  induction es generalizing s with
  | nil => exact ⟨h.1, hQ s h.2⟩
  | cons e es ih =>
    obtain ⟨hP, t, ht, hrest⟩ := h
    exact ⟨hP, t, ht, ih hrest⟩

theorem exec_eq (h : Throughout step P Q es s) : ∃ t, exec step s es = some t ∧ Q t := by
  induction es generalizing s with
  | nil => exact ⟨s, rfl, h.2⟩
  | cons e es ih =>
    obtain ⟨-, t, ht, hrest⟩ := h
    obtain ⟨u, hu, hQ⟩ := ih hrest
    exact ⟨u, exec_cons.mpr ⟨t, ht, hu⟩, hQ⟩

theorem of_prefix (h : Throughout step P Q es s) (hfs : fs <+: es) (hu : exec step s fs = some u) : P u := by
  induction fs generalizing s es with
  | nil =>
    cases hu
    cases es with
    | nil => exact h.1
    | cons e es => exact h.1
  | cons f fs ih =>
    obtain ⟨gs, rfl⟩ := hfs
    obtain ⟨-, t, ht, hrest⟩ := h
    obtain ⟨t', ht', hu⟩ := exec_cons.mp hu
    obtain rfl := Option.some.inj (ht.symm.trans ht')
    exact ih hrest (List.prefix_append fs gs) hu

/-- A run of calls, each a list of events, from what a call does between states related to those of an abstract run. -/
theorem flatMap {α κ : Type} {next : α → κ → Option α} {ops : κ → List ε} {I : α → σ → Prop} {a b : α} {calls : List κ}
    (hI : ∀ a s, I a s → P s) (hcall : ∀ a c b s, I a s → next a c = some b → Throughout step P (I b) (ops c) s) (h : I a s)
    (hrun : exec next a calls = some b) : Throughout step P (I b) (calls.flatMap ops) s := by
  induction calls generalizing a s with
  | nil =>
    cases hrun
    exact ⟨hI _ s h, h⟩
  | cons c calls ih =>
    obtain ⟨a', ha', hrun⟩ := exec_cons.mp hrun
    rw [List.flatMap_cons]
    exact (hcall a c a' s h ha').append fun t ht => ih ht hrun

end Throughout

/-! ### Steps that go through exactly under a condition -/

variable {α β : Type} {P P' : Prop} {Q : α → Prop} {R : β → Prop} {o : Option α}

/-- The step with the outcome `o` goes through exactly under `P`, and then to a state with `Q`. -/
structure Exactly {α : Type} (P : Prop) (Q : α → Prop) (o : Option α) : Prop where
  some_of : P → ∃ a, o = some a ∧ Q a
  none_of : ¬ P → o = none

theorem Exactly.total (ho : ∃ a, o = some a ∧ Q a) (hP : P) : Exactly P Q o :=
  ⟨fun _ => ho, fun h => absurd hP h⟩

theorem Exactly.of_iff (h : Exactly P Q o) (hP : P' ↔ P) : Exactly P' Q o :=
  ⟨fun h' => h.some_of (hP.mp h'), fun h' => h.none_of fun hp => h' (hP.mpr hp)⟩

theorem Exactly.map {f : α → β} (h : Exactly P Q o) (hf : ∀ a, Q a → R (f a)) : Exactly P R (o.map f) := by
  refine ⟨fun hP => ?_, fun hP => by rw [h.none_of hP, Option.map_none]⟩
  obtain ⟨a, ha, hQ⟩ := h.some_of hP
  exact ⟨f a, by rw [ha, Option.map_some], hf a hQ⟩

theorem Exactly.isSome_iff (h : Exactly P Q o) : (∃ a, o = some a) ↔ P := by
  refine ⟨fun ⟨a, ha⟩ => by_contra fun hP => ?_, fun hP => ?_⟩
  · rw [h.none_of hP] at ha
    exact nomatch ha
  · obtain ⟨a, ha, -⟩ := h.some_of hP
    exact ⟨a, ha⟩

end Fos.Lib
