import Fos.Print.Run

/-! What `vprintfmt` hands to `putch`, as one list. -/

namespace Fos.Print
open Lib

def snoc (c : Int) (l : List Int) : List Int := l ++ [c]

/-- The full output of a format -/
def output (depth : Nat) (fmt : Text) (args : List Arg) : Option (List Int) := vprintfmt snoc depth fmt args []

section Map
variable {σ τ : Type} {p : Int → τ → τ} {q : Int → σ → σ} {φ : τ → σ}

theorem pad_map (hφ : ∀ c x, φ (p c x) = q c (φ x)) (c : Int) (n : Nat) (x : τ) : φ (pad p c n x) = pad q c n (φ x) := by
  induction n generalizing x with
  | zero => rfl
  | succ n ih =>
    unfold pad
    rw [ih, hφ]

theorem printnum_map (hφ : ∀ c x, φ (p c x) = q c (φ x)) (base : Nat) (padc : Int) (depth num : Nat) (width : Int) (x : τ) :
    (printnum p base padc depth num width x).map φ = printnum q base padc depth num width (φ x) := by
  induction depth generalizing num width x with
  | zero => rfl
  | succ depth ih =>
    unfold printnum
    have hlast : φ ∘ (fun s => p (digit (num % base)).toNat s) = (fun s => q (digit (num % base)).toNat s) ∘ φ :=
      funext fun x => hφ _ x
    split
    · dsimp only
      rw [Option.map_map, hlast, ← Option.map_map, ih]
    · dsimp only
      rw [Option.map_some, Option.map_some, hφ, pad_map hφ, Option.map_some]

theorem putString_map (hφ : ∀ c x, φ (p c x) = q c (φ x)) (altflag : Bool) (l : List UInt8) (precision width : Int) (x : τ) :
    putString q altflag l precision width (φ x) =
      (φ (putString p altflag l precision width x).1, (putString p altflag l precision width x).2) := by
  induction l generalizing precision width x with
  | nil => rfl
  | cons c l ih =>
    unfold putString
    dsimp only
    generalize (if precision < 0 then precision else precision - 1) = left
    by_cases hstop : precision < 0 ∨ left ≥ 0
    · rw [if_pos hstop, if_pos hstop, ← hφ]
      exact ih ..
    · rw [if_neg hstop, if_neg hstop]

theorem putText_map (hφ : ∀ c x, φ (p c x) = q c (φ x)) (e : Escape) (s : Text) (x : τ) :
    φ (putText p e s x) = putText q e s (φ x) := by
  unfold putText
  dsimp only
  split
  · rw [← pad_map hφ, putString_map hφ, pad_map hφ]
  · rw [putString_map hφ, pad_map hφ]

variable {f : Text → List Arg → τ → Option τ} {g : Text → List Arg → σ → Option σ}

/-- The state of a result of the switch is mapped. -/
def mapState (φ : τ → σ) (r : Nat × List Arg × τ) : Nat × List Arg × σ := (r.1, r.2.1, φ r.2.2)

theorem convert_map (hφ : ∀ c x, φ (p c x) = q c (φ x)) (hf : ∀ fmt args x, (f fmt args x).map φ = g fmt args (φ x)) (fmt : Text)
    (c : UInt8) (i : Nat) (e : Escape) (args : List Arg) (x : τ) :
    (convert p f fmt c i e args x).map (mapState φ) = convert q g fmt c i e args (φ x) := by
  have hpair : ∀ (i : Nat) (args : List Arg) (o : Option τ),
      (o.map fun s => (i, args, s)).map (mapState φ) = (o.map φ).map fun s => (i, args, s) := fun i args o => by
    cases o <;> rfl
  unfold convert
  cases conversionOf c with
  | none =>
    dsimp only
    rw [← hφ]
    cases backUp fmt (i - 1) <;> rfl
  | some conv =>
    cases conv with
    | char =>
      dsimp only
      split
      · rw [← hφ]
        rfl
      · rfl
    | error =>
      dsimp only
      split
      · next x' args' =>
        generalize (if x'.toInt < 0 then int32 (-x'.toInt) else x'.toInt) = err
        rw [← hf, ← hpair]
        by_cases herr : err > maxError
        · rw [if_pos herr, if_pos herr]
        · rw [if_neg herr, if_neg herr]
          cases errorString err with
          | none => rfl
          | some o =>
            cases o with
            | none => rfl
            | some s =>
              rw [Option.bind_some, Option.bind_some]
              dsimp only
              rw [hpair, hf]
      · rfl
    | string =>
      dsimp only
      split
      · rw [← putText_map hφ]
        rfl
      · rfl
    | decimal =>
      dsimp only
      cases getint e.lflag args with
      | none => rfl
      | some r =>
        rw [Option.bind_some, Option.bind_some]
        split
        · rw [hpair, printnum_map hφ, hφ]
        · rw [hpair, printnum_map hφ]
    | unsigned | hex =>
      dsimp only
      cases getuint e.lflag args with
      | none => rfl
      | some r =>
        rw [Option.bind_some, Option.bind_some, hpair, printnum_map hφ]
    | pointer =>
      dsimp only
      split
      · rw [hpair, printnum_map hφ, hφ, hφ]
      · rfl
    | octal =>
      dsimp only
      rw [← hφ, ← hφ, ← hφ]
      rfl
    | percent =>
      dsimp only
      rw [← hφ]
      rfl
    | progName => rfl

theorem loop_map (hφ : ∀ c x, φ (p c x) = q c (φ x)) (hf : ∀ fmt args x, (f fmt args x).map φ = g fmt args (φ x)) (fmt : Text)
    (fuel i : Nat) (args : List Arg) (x : τ) : (loop p f fmt fuel i args x).map φ = loop q g fmt fuel i args (φ x) := by
  induction fuel generalizing i args x with
  | zero => rfl
  | succ fuel ih =>
    unfold loop
    cases fmt.get i with
    | none => rfl
    | some ch =>
      rw [Option.bind_some, Option.bind_some]
      split
      · split
        · rfl
        · rw [ih, hφ]
      · cases reswitch fmt fmt.bytes.length (i + 1) {} args with
        | none => rfl
        | some r =>
          rw [Option.bind_some, Option.bind_some]
          dsimp only
          rw [← convert_map hφ hf]
          cases convert p f fmt r.1 r.2.1 r.2.2.1 r.2.2.2 x with
          | none => rfl
          | some y => exact ih ..

theorem vprintfmt_map (hφ : ∀ c x, φ (p c x) = q c (φ x)) (depth : Nat) (fmt : Text) (args : List Arg) (x : τ) :
    (vprintfmt p depth fmt args x).map φ = vprintfmt q depth fmt args (φ x) := by
  induction depth generalizing fmt args x with
  | zero => rfl
  | succ depth ih => exact loop_map hφ ih fmt _ 0 args x

end Map

/-- `putch` is called for one character of the output after the other. -/
theorem vprintfmt_eq {σ : Type} (putch : Int → σ → σ) (depth : Nat) (fmt : Text) (args : List Arg) (s : σ) :
    vprintfmt putch depth fmt args s = (output depth fmt args).map fun out => out.foldl (fun s c => putch c s) s := by
  refine (vprintfmt_map (φ := fun out : List Int => out.foldl (fun s c => putch c s) s) (fun c out => ?_) depth fmt args []).symm
  rw [snoc, List.foldl_append, List.foldl_cons, List.foldl_nil]

end Fos.Print
