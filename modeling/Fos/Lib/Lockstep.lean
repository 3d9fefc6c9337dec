import Fos.Lib.Reach

/-! Two partial computations that go through together: either both fail, or both have results and these are related. -/

namespace Fos.Lib

variable {α β γ δ : Type} {R R' : α → β → Prop} {Q : γ → δ → Prop} {x : Option α} {y : Option β}

theorem rel_bind {f : α → Option γ} {g : β → Option δ} (h : Option.Rel R x y)
    (hf : ∀ a b, x = some a → R a b → Option.Rel Q (f a) (g b)) : Option.Rel Q (x.bind f) (y.bind g) := by
  cases h with
  | some h => exact hf _ _ rfl h
  | none => exact .none

theorem rel_map {f : α → γ} {g : β → δ} (h : Option.Rel R x y) (hf : ∀ a b, x = some a → R a b → Q (f a) (g b)) :
    Option.Rel Q (x.map f) (y.map g) := by
  cases h with
  | some h => exact .some (hf _ _ rfl h)
  | none => exact .none

/-- Only the first result is used further. -/
theorem rel_map_left {Q : γ → β → Prop} {f : α → γ} (h : Option.Rel R x y) (hf : ∀ a b, x = some a → R a b → Q (f a) b) :
    Option.Rel Q (x.map f) y := by
  cases h with
  | some h => exact .some (hf _ _ rfl h)
  | none => exact .none

/-- What the first goes on with does not fail. -/
theorem rel_bind_left {Q : γ → β → Prop} {f : α → Option γ} (h : Option.Rel R x y)
    (hf : ∀ a b, x = some a → R a b → ∃ c, f a = some c ∧ Q c b) : Option.Rel Q (x.bind f) y := by
  cases h with
  | some h =>
    obtain ⟨c, hc, hQ⟩ := hf _ _ rfl h
    rw [Option.bind_some, hc]
    exact .some hQ
  | none => exact .none

/-- More is known of the results. -/
theorem rel_imp (h : Option.Rel R x y) (hx : ∀ a b, x = some a → y = some b → R a b → R' a b) : Option.Rel R' x y := by
  cases h with
  | some h => exact .some (hx _ _ rfl rfl h)
  | none => exact .none

theorem rel_isSome_iff (h : Option.Rel R x y) : x.isSome ↔ y.isSome := by
  cases h with
  | some h => exact Iff.rfl
  | none => exact Iff.rfl

theorem rel_of_isSome_iff (h : x.isSome ↔ y.isSome) : Option.Rel (fun _ _ => True) x y := by
  cases x with
  | none =>
    cases y with
    | none => exact .none
    | some b => exact absurd (h.mpr rfl) Bool.false_ne_true
  | some a =>
    cases y with
    | none => exact absurd (h.mp rfl) Bool.false_ne_true
    | some b => exact .some trivial

theorem rel_of_some {a : α} (h : Option.Rel R x y) (hx : x = some a) : ∃ b, y = some b ∧ R a b := by
  cases h with
  | some h =>
    cases hx
    exact ⟨_, rfl, h⟩
  | none => exact absurd hx.symm (Option.some_ne_none a)

theorem unless_eq_some {p : α → Prop} [DecidablePred p] {a : α} :
    (x.bind fun a => if p a then none else some a) = some a ↔ x = some a ∧ ¬ p a := by
  constructor
  · intro h
    obtain ⟨b, hb, h⟩ := Option.bind_eq_some_iff.mp h
    obtain ⟨hp, heq⟩ := Option.ite_none_left_eq_some.mp h
    cases heq
    exact ⟨hb, hp⟩
  · rintro ⟨rfl, hp⟩
    exact if_neg hp

/-- A result that is refused ends the computation. -/
theorem bind_unless {p : α → Prop} [DecidablePred p] (x : Option α) (f : α → Option γ) :
    (x.bind fun a => if p a then none else f a) = (x.bind fun a => if p a then none else some a).bind f := by
  rw [Option.bind_assoc]
  refine Option.bind_congr fun a _ => ?_
  split
  · rfl
  · rfl

theorem map_unless {p : α → Prop} [DecidablePred p] (x : Option α) (f : α → γ) :
    (x.bind fun a => if p a then none else some (f a)) = (x.bind fun a => if p a then none else some a).map f := by
  rw [Option.map_eq_bind]
  exact bind_unless x _

variable {σ τ ε ι : Type} {step : σ → ε → Option σ} {step' : τ → ι → Option τ}

theorem exec_append (step : σ → ε → Option σ) (s : σ) (es fs : List ε) :
    exec step s (es ++ fs) = (exec step s es).bind fun t => exec step t fs := by
  induction es generalizing s with
  | nil => rfl
  | cons e es ih =>
    show (step s e).bind _ = ((step s e).bind _).bind _
    rw [Option.bind_assoc]
    exact congrArg _ (funext ih)

theorem exec_single (step : σ → ε → Option σ) (s : σ) (e : ε) : exec step s [e] = step s e := Option.bind_fun_some _

/-- Two executions go through together when their steps do; one step of the first is a list of steps of the second. -/
theorem rel_exec {R : σ → τ → Prop} {ops : ε → List ι} {es : List ε} {s : σ} {t : τ} (h : R s t)
    (hstep : ∀ s t, ∀ e ∈ es, R s t → Option.Rel R (step s e) (exec step' t (ops e))) :
    Option.Rel R (exec step s es) (exec step' t (es.flatMap ops)) := by
  induction es generalizing s t with
  | nil => exact .some h
  | cons e es ih =>
    rw [List.flatMap_cons, exec_append]
    exact rel_bind (hstep s t e (List.mem_cons_self ..) h) fun s t _ h =>
      ih h fun s t f hf => hstep s t f (List.mem_cons_of_mem _ hf)

end Fos.Lib
