import Fos.Print.Printf
import Mathlib.Data.List.Induction

/-! `vprintfmt` ends for every format with arguments that fit it, and puts out the escape sequences that it does not know as they
    are. -/

namespace Fos.Print
open Lib

/-! ### The arguments that a format needs -/

inductive Kind where
  | word
  | wide
  | str
  deriving DecidableEq, Repr

def Arg.kind : Arg → Kind
  | .word _ => .word
  | .wide _ => .wide
  | .str _ => .str

/-- What the character that ends an escape sequence takes -/
def conversionKinds (lflag : Int) (c : UInt8) : List Kind :=
  match conversionOf c with
  | some .char | some .error | some .pointer => [.word]
  | some .decimal | some .unsigned | some .hex => [if lflag ≥ 2 then .wide else .word]
  | some .string => [.str]
  | some .octal | some .percent | some .progName | none => []

/-- What a format takes from here on: in its text, or within an escape sequence with the long flags so far -/
def kinds : Option Int → List UInt8 → List Kind
  | _, [] => []
  | none, c :: cs => if c = 37 then kinds (some 0) cs else kinds none cs
  | some lflag, c :: cs =>
    match flagOf c with
    | some .star => .word :: kinds (some lflag) cs
    | some .long => kinds (some (int32 (lflag + 1))) cs
    | some .left | some .zero | some .digit | some .dot | some .alt => kinds (some lflag) cs
    | none => conversionKinds lflag c ++ kinds none cs

/-- The arguments are those that the format takes, and perhaps more. -/
def Matches (fmt : Text) (args : List Arg) : Prop := kinds none fmt.chars <+: args.map Arg.kind

instance (fmt : Text) (args : List Arg) : Decidable (Matches fmt args) := inferInstanceAs (Decidable (_ <+: _))

variable {σ : Type} {putch : Int → σ → σ} {printfmt : Text → List Arg → σ → Option σ} {fmt : Text} {args : List Arg}
  {flags l r : List UInt8} {c : UInt8} {e : Escape} {lflag : Int} {i fuel n : Nat} {s t : σ}

theorem kinds_nul (mode : Option Int) (l : List UInt8) : kinds mode (l ++ [0]) = kinds mode l := by
  induction l generalizing mode with
  | nil => cases mode <;> rfl
  | cons c l ih =>
    cases mode with
    | none =>
      rw [List.cons_append, kinds, kinds, ih, ih]
    | some lflag =>
      rw [List.cons_append, kinds, kinds]
      cases flagOf c with
      | none => simp only [ih]
      | some f => cases f <;> simp only [ih]

/-- Text without `%` takes nothing. -/
theorem kinds_text (hl : 37 ∉ l) : kinds none (l ++ r) = kinds none r := by
  induction l with
  | nil => rfl
  | cons c l ih =>
    have hne : c ≠ 37 := fun hc => hl (hc ▸ List.mem_cons_self)
    rw [List.cons_append, kinds, if_neg hne, ih fun h => hl (List.mem_cons_of_mem c h)]

theorem flagOf_star_iff : flagOf c = some .star ↔ c = 42 := by
  unfold flagOf
  grind

theorem flagOf_digit_iff : (c < 48 ∨ 57 < c) ↔ flagOf c ≠ some .zero ∧ flagOf c ≠ some .digit := by
  unfold flagOf
  grind

/-! ### The positions of a format -/

theorem Text.get_of_drop (h : fmt.bytes.drop i = c :: r) : fmt.get i = some c := by
  have hget : (fmt.bytes.drop i)[0]? = fmt.bytes[i + 0]? := List.getElem?_drop
  rw [h, Nat.add_zero] at hget
  exact hget.symm

theorem Text.drop_add (h : fmt.bytes.drop i = l ++ r) : fmt.bytes.drop (i + l.length) = r := by
  rw [← List.drop_drop, h, List.drop_left]

theorem Text.drop_succ (h : fmt.bytes.drop i = c :: r) : fmt.bytes.drop (i + 1) = r :=
  Text.drop_add (show fmt.bytes.drop i = [c] ++ r from h)

/-- The rest of a format ends with its NUL. -/
theorem Text.getLast_of_drop (h : fmt.bytes.drop i = l) (hl : l ≠ []) : ∃ l', l = l' ++ [0] ∧ 0 ∉ l' := by
  have hi : i ≤ fmt.chars.length := by
    by_contra hgt
    refine hl (h.symm.trans (List.drop_eq_nil_of_le ?_))
    rw [Text.bytes, List.length_append, List.length_singleton]
    omega
  refine ⟨fmt.chars.drop i, ?_, fun h0 => fmt.nonzero (List.mem_of_mem_drop h0)⟩
  rw [← h, Text.bytes, List.drop_append_of_le_length hi]

/-- Behind a byte that is not zero there is another one. -/
theorem Text.rest_ne_nil (h : fmt.bytes.drop i = c :: r) (hc : c ≠ 0) : r ≠ [] := by
  rintro rfl
  obtain ⟨l', hl', -⟩ := Text.getLast_of_drop h (List.cons_ne_nil c [])
  have hlast := congrArg List.getLast? hl'
  simp only [List.getLast?_singleton, List.getLast?_append, Option.some_or, Option.some.injEq] at hlast
  exact hc hlast

/-- A byte with another one behind it is not zero. -/
theorem Text.ne_zero_of_drop (h : fmt.bytes.drop i = c :: r) (hr : r ≠ []) : c ≠ 0 := by
  rintro rfl
  obtain ⟨l', hl', h0⟩ := Text.getLast_of_drop h (List.cons_ne_nil 0 r)
  cases l' with
  | nil => exact hr (List.cons.inj hl').2
  | cons x l' => exact h0 ((List.cons.inj hl').1 ▸ List.mem_cons_self)

theorem Text.length_of_drop (h : fmt.bytes.drop i = l) (hl : l ≠ []) : i + l.length = fmt.bytes.length := by
  have hlength := congrArg List.length h
  have hpos := List.length_pos_iff.mpr hl
  rw [List.length_drop] at hlength
  omega

/-! ### An escape sequence -/

/-- The digits of a width give its value. -/
theorem fieldWidth_eq (l : List UInt8) (hl : ∀ d ∈ l, ¬ (d < 48 ∨ 57 < d)) (hc : c < 48 ∨ 57 < c)
    (h : fmt.bytes.drop i = l ++ c :: r) (hfuel : l.length < fuel) (precision : Int) (ch : UInt8) :
    fieldWidth fmt fuel i precision ch =
      some ((ch :: l).foldl (fun v d => int32 (v * 10 + d.toNat - 48)) precision, i + l.length) := by
  induction l generalizing i fuel precision ch with
  | nil =>
    obtain ⟨fuel, rfl⟩ := Nat.exists_eq_add_one_of_ne_zero (Nat.ne_of_gt hfuel)
    rw [fieldWidth, Text.get_of_drop h, Option.bind_some, if_pos hc]
    rfl
  | cons d l ih =>
    obtain ⟨fuel, rfl⟩ := Nat.exists_eq_add_one_of_ne_zero (Nat.ne_of_gt (Nat.zero_lt_of_lt hfuel))
    have hih := ih (fun x hx => hl x (List.mem_cons_of_mem d hx)) (Text.drop_succ h) (Nat.lt_of_succ_lt_succ hfuel)
      (int32 (precision * 10 + ch.toNat - 48)) d
    rw [fieldWidth, Text.get_of_drop h, Option.bind_some, if_neg (hl d List.mem_cons_self), hih, List.length_cons]
    congr 2
    omega

@[simp] theorem lflag_processPrecision (precision : Int) : (e.processPrecision precision).lflag = e.lflag := by
  unfold Escape.processPrecision
  split <;> rfl

/-- The digits in front of the first character that is none -/
theorem exists_digits (hc : c < 48 ∨ 57 < c) (fs : List UInt8) :
    ∃ ds fs', fs = ds ++ fs' ∧ (∀ d ∈ ds, ¬ (d < 48 ∨ 57 < d)) ∧ ∃ x rest, fs' ++ c :: r = x :: rest ∧ (x < 48 ∨ 57 < x) := by
  induction fs with
  | nil => exact ⟨[], [], rfl, nofun, c, r, rfl, hc⟩
  | cons f fs ih =>
    by_cases hf : f < 48 ∨ 57 < f
    · exact ⟨[], f :: fs, rfl, nofun, f, fs ++ c :: r, rfl, hf⟩
    · obtain ⟨ds, fs', rfl, hds, hx⟩ := ih
      exact ⟨f :: ds, fs', rfl, List.forall_mem_cons.mpr ⟨hf, hds⟩, hx⟩

theorem kinds_digits (hl : ∀ d ∈ l, ¬ (d < 48 ∨ 57 < d)) : kinds (some lflag) (l ++ r) = kinds (some lflag) r := by
  induction l with
  | nil => rfl
  | cons d l ih =>
    have hd : flagOf d = some .zero ∨ flagOf d = some .digit := by
      have hnot := hl d List.mem_cons_self
      rw [flagOf_digit_iff] at hnot
      tauto
    rw [List.cons_append, kinds]
    rcases hd with hd | hd <;> simp only [hd] <;> exact ih fun x hx => hl x (List.mem_cons_of_mem d hx)

theorem count_star_digits (hl : ∀ d ∈ l, ¬ (d < 48 ∨ 57 < d)) : l.count 42 = 0 :=
  List.count_eq_zero.mpr fun h42 => absurd (hl 42 h42) (by decide)

/-- A digit and the digits behind it give a width. -/
theorem reswitch_digits {f x : UInt8} {ds rest : List UInt8} (hf : flagOf f = some .digit)
    (hds : ∀ d ∈ ds, ¬ (d < 48 ∨ 57 < d)) (hx : x < 48 ∨ 57 < x) (h : fmt.bytes.drop i = f :: (ds ++ x :: rest)) :
    ∃ precision, reswitch fmt (fuel + 1) i e args =
      reswitch fmt fuel (i + 1 + ds.length) (e.processPrecision precision) args := by
  have hdrop := Text.drop_succ h
  have hlength := Text.length_of_drop hdrop (by simp)
  rw [List.length_append] at hlength
  refine ⟨(f :: ds).foldl (fun v d => int32 (v * 10 + d.toNat - 48)) 0, ?_⟩
  conv_lhs => unfold reswitch
  rw [Text.get_of_drop h, Option.bind_some, hf]
  dsimp only
  rw [fieldWidth_eq ds hds hx hdrop (by simp only [List.length_cons] at hlength; omega), Option.bind_some]

/-- The flags are passed, the arguments of their stars are taken, and the character behind them ends the sequence. -/
theorem reswitch_flags (flags : List UInt8) (hflags : ∀ f ∈ flags, flagOf f ≠ none) (hc : flagOf c = none)
    (h : fmt.bytes.drop i = flags ++ c :: r) (hfuel : flags.length < fuel)
    (hkinds : kinds (some e.lflag) (flags ++ c :: r) <+: args.map Arg.kind) :
    ∃ e', reswitch fmt fuel i e args = some (c, i + flags.length + 1, e', args.drop (flags.count 42)) ∧
      conversionKinds e'.lflag c ++ kinds none r <+: (args.drop (flags.count 42)).map Arg.kind := by
  induction hn : flags.length using Nat.strongRecOn generalizing flags i fuel e args with
  | ind n ih =>
    obtain ⟨fuel, rfl⟩ := Nat.exists_eq_add_one_of_ne_zero (Nat.ne_of_gt (Nat.zero_lt_of_lt hfuel))
    cases flags with
    | nil =>
      subst hn
      refine ⟨e, ?_, ?_⟩
      · unfold reswitch
        rw [Text.get_of_drop h, Option.bind_some, hc]
        rfl
      · rw [List.nil_append, kinds, hc] at hkinds
        exact hkinds
    | cons f fs =>
      rw [List.length_cons] at hn hfuel
      have hfs : ∀ x ∈ fs, flagOf x ≠ none := fun x hx => hflags x (List.mem_cons_of_mem f hx)
      have hdrop := Text.drop_succ h
      obtain ⟨flag, hflag⟩ := Option.ne_none_iff_exists'.mp (hflags f List.mem_cons_self)
      rw [List.cons_append, kinds, hflag] at hkinds
      have hpos : i + 1 + fs.length + 1 = i + n + 1 := by omega
      have hstar : flag ≠ .star → (f :: fs).count 42 = fs.count 42 := fun hne =>
        List.count_cons_of_ne fun h42 => hne (Option.some.inj (hflag.symm.trans (flagOf_star_iff.mpr h42)))
      cases flag with
      | left | zero | dot | alt | long =>
        unfold reswitch
        rw [Text.get_of_drop h, Option.bind_some, hflag, hstar (by decide), ← hpos]
        exact ih _ (by omega) fs hfs hdrop (by omega) hkinds rfl
      | star =>
        obtain rfl := flagOf_star_iff.mp hflag
        unfold reswitch
        rw [Text.get_of_drop h, Option.bind_some, hflag]
        cases args with
        | nil => exact absurd hkinds (by simp)
        | cons a args =>
          rw [List.map_cons, List.cons_prefix_cons] at hkinds
          obtain ⟨ha, hkinds⟩ := hkinds
          cases a with
          | word x =>
            rw [List.count_cons_self, List.drop_succ_cons, ← hpos]
            exact ih _ (by omega) fs hfs hdrop (by omega) (by rwa [lflag_processPrecision]) rfl
          | wide _ | str _ => cases ha
      | digit =>
        -- The digits that follow belong to the width.
        have hc' : c < 48 ∨ 57 < c := flagOf_digit_iff.mpr (by simp [hc])
        obtain ⟨ds, fs', rfl, hds, x, rest, hx, hx'⟩ := exists_digits (r := r) hc' fs
        have hrest : ds ++ fs' ++ c :: r = ds ++ x :: rest := by rw [List.append_assoc, hx]
        rw [List.length_append] at hpos hn hfuel
        have hdrop' : fmt.bytes.drop (i + 1 + ds.length) = fs' ++ c :: r :=
          Text.drop_add (hdrop.trans (List.append_assoc ..))
        have hkinds' : kinds (some e.lflag) (fs' ++ c :: r) <+: args.map Arg.kind := by
          rw [List.append_assoc] at hkinds
          rwa [← kinds_digits hds]
        have hcount : (f :: (ds ++ fs')).count 42 = fs'.count 42 := by
          rw [hstar (by decide), List.count_append, count_star_digits hds, Nat.zero_add]
        have hpos' : i + 1 + ds.length + fs'.length + 1 = i + n + 1 := by omega
        obtain ⟨precision, hwidth⟩ := reswitch_digits hflag hds hx' (h.trans (congrArg (f :: ·) hrest))
        rw [hwidth, hcount, ← hpos']
        exact ih _ (by omega) fs' (fun y hy => hfs y (List.mem_append_right ds hy)) hdrop' (by omega)
          (by rwa [lflag_processPrecision]) rfl

theorem backUp_eq (flags : List UInt8) (hflags : 37 ∉ flags) (h : fmt.bytes.drop i = 37 :: (flags ++ r)) :
    backUp fmt (i + 1 + flags.length) = some (i + 1) := by
  induction flags using List.reverseRecOn generalizing r with
  | nil =>
    rw [List.length_nil, Nat.add_zero, backUp, Text.get_of_drop h, Option.bind_some, if_pos rfl]
  | append_singleton flags f ih =>
    rw [List.append_assoc] at h
    have hget : fmt.get (i + 1 + flags.length) = some f :=
      Text.get_of_drop (Text.drop_add (Text.drop_succ h))
    have hf : f ≠ 37 := fun hf => hflags (List.mem_append_right flags (List.mem_singleton.mpr hf.symm))
    rw [List.length_append, List.length_singleton, ← Nat.add_assoc, backUp, hget, Option.bind_some, if_neg hf]
    exact ih (fun h37 => hflags (List.mem_append_left [f] h37)) h

/-! ### The conversions -/

theorem depth_pos {base depth num : Nat} (h : num < base ^ (depth + 1)) (hge : num ≥ base) : 0 < depth := by
  rcases Nat.eq_zero_or_pos depth with rfl | hpos
  · rw [Nat.zero_add, Nat.pow_one] at h
    omega
  · exact hpos

theorem printnum_some {base depth num : Nat} (h : num < base ^ depth) (hdepth : 0 < depth) (padc width : Int)
    (s : σ) : ∃ t, printnum putch base padc depth num width s = some t := by
  induction depth generalizing num width s with
  | zero => exact absurd hdepth (Nat.lt_irrefl 0)
  | succ depth ih =>
    unfold printnum
    by_cases hnum : num ≥ base
    · have hlt : num / base < base ^ depth := Nat.div_lt_of_lt_mul (by rwa [Nat.pow_succ, Nat.mul_comm] at h)
      obtain ⟨t, ht⟩ := ih hlt (depth_pos h hnum) (int32 (width - 1)) s
      exact ⟨_, by rw [if_pos hnum, ht, Option.map_some]⟩
    · exact ⟨_, by rw [if_neg hnum, Option.map_some]⟩

/-- The depth is enough for a number of 64 bits. -/
theorem printnum_total (putch : Int → σ → σ) (base : Nat) {num : Nat} (hbase : 10 ≤ base) (h : num < 2 ^ 64) (padc width : Int) (s : σ) :
    ∃ t, printnum putch base padc 64 num width s = some t := by
  have hpow : 10 ^ 64 ≤ base ^ 64 := Nat.pow_le_pow_left hbase 64
  exact printnum_some (by omega) (by decide) padc width s

/-- The argument of a number is there, in the width of its flags. -/
theorem exists_number {ks : List Kind} (h : (if lflag ≥ 2 then Kind.wide else Kind.word) :: ks <+: args.map Arg.kind) :
    ∃ a args', args = a :: args' ∧ ks <+: args'.map Arg.kind ∧
      ((lflag ≥ 2 ∧ ∃ x, a = .wide x) ∨ (¬ lflag ≥ 2 ∧ ∃ x, a = .word x)) := by
  cases args with
  | nil => exact absurd h (by simp)
  | cons a args =>
    rw [List.map_cons, List.cons_prefix_cons] at h
    refine ⟨a, args, rfl, h.2, ?_⟩
    by_cases hl : lflag ≥ 2
    · rw [if_pos hl] at h
      cases a with
      | wide x => exact Or.inl ⟨hl, x, rfl⟩
      | word _ | str _ => cases h.1
    · rw [if_neg hl] at h
      cases a with
      | word x => exact Or.inr ⟨hl, x, rfl⟩
      | wide _ | str _ => cases h.1

theorem getint_some {ks : List Kind} (h : (if lflag ≥ 2 then Kind.wide else Kind.word) :: ks <+: args.map Arg.kind) :
    ∃ num args', getint lflag args = some (num, args') ∧ ks <+: args'.map Arg.kind := by
  obtain ⟨a, args', rfl, hks, ⟨hl, x, rfl⟩ | ⟨hl, x, rfl⟩⟩ := exists_number h
  · exact ⟨x, args', if_pos hl, hks⟩
  · exact ⟨x.signExtend 64, args', if_neg hl, hks⟩

theorem getuint_some {ks : List Kind} (h : (if lflag ≥ 2 then Kind.wide else Kind.word) :: ks <+: args.map Arg.kind) :
    ∃ num args', getuint lflag args = some (num, args') ∧ ks <+: args'.map Arg.kind := by
  obtain ⟨a, args', rfl, hks, ⟨hl, x, rfl⟩ | ⟨hl, x, rfl⟩⟩ := exists_number h
  · exact ⟨x, args', if_pos hl, hks⟩
  · exact ⟨x.setWidth 64, args', if_neg hl, hks⟩

theorem exists_word {ks : List Kind} (h : .word :: ks <+: args.map Arg.kind) :
    ∃ x args', args = .word x :: args' ∧ ks <+: args'.map Arg.kind := by
  cases args with
  | nil => exact absurd h (by simp)
  | cons a args =>
    rw [List.map_cons, List.cons_prefix_cons] at h
    cases a with
    | word x => exact ⟨x, args, rfl, h.2⟩
    | wide _ | str _ => cases h.1

theorem exists_str {ks : List Kind} (h : .str :: ks <+: args.map Arg.kind) :
    ∃ p args', args = .str p :: args' ∧ ks <+: args'.map Arg.kind := by
  cases args with
  | nil => exact absurd h (by simp)
  | cons a args =>
    rw [List.map_cons, List.cons_prefix_cons] at h
    cases a with
    | str p => exact ⟨p, args, rfl, h.2⟩
    | word _ | wide _ => cases h.1

/-- The calls of `printfmt` for an error number end. -/
structure PrintsErrors (printfmt : Text → List Arg → σ → Option σ) : Prop where
  number : ∀ x s, ∃ t, printfmt errorFormat [.word x] s = some t
  text : ∀ p s, ∃ t, printfmt stringFormat [.str (some p)] s = some t

/-- The magnitude of an `int`, which is negative still for the least one, gives an element of the table. -/
theorem errorString_some {z : Int} (hl : -2147483648 ≤ z) (hu : z < 2147483648)
    (h : ¬ (if z < 0 then int32 (-z) else z) > maxError) : ∃ p, errorString (if z < 0 then int32 (-z) else z) = some p := by
  refine ⟨_, if_pos ?_⟩
  unfold maxError at *
  by_cases hz : z = -2147483648
  · subst hz
    decide
  · split
    · next hneg =>
      rw [if_pos hneg, int32_eq (by omega) (by omega)] at h
      rw [int32_eq (by omega) (by omega)]
      omega
    · next hpos =>
      rw [if_neg hpos] at h
      omega

theorem convert_error_some (hprint : PrintsErrors printfmt) (hc : conversionOf c = some .error) (i : Nat) (e : Escape)
    (x : BitVec 32) (args : List Arg) (s : σ) : ∃ t, convert putch printfmt fmt c i e (.word x :: args) s = some (i, args, t) := by
  unfold convert
  rw [hc]
  dsimp only
  generalize hz : x.toInt = z
  obtain ⟨t, ht⟩ := hprint.number (BitVec.ofInt 32 (if z < 0 then int32 (-z) else z)) s
  by_cases herr : (if z < 0 then int32 (-z) else z) > maxError
  · exact ⟨t, by rw [if_pos herr, ht, Option.map_some]⟩
  · obtain ⟨p, hp⟩ := errorString_some (hz ▸ x.le_toInt) (hz ▸ x.toInt_lt) herr
    rw [if_neg herr, hp, Option.bind_some]
    cases p with
    | none => exact ⟨t, by dsimp only; rw [ht, Option.map_some]⟩
    | some p =>
      obtain ⟨t', ht'⟩ := hprint.text p s
      exact ⟨t', by dsimp only; rw [ht', Option.map_some]⟩

theorem convert_decimal_some (putch : Int → σ → σ) (printfmt : Text → List Arg → σ → Option σ) (fmt : Text)
    (hc : conversionOf c = some .decimal) (i : Nat) (e : Escape) {num : BitVec 64} {args' : List Arg}
    (hget : getint e.lflag args = some (num, args')) (s : σ) :
    ∃ t, convert putch printfmt fmt c i e args s = some (i, args', t) := by
  unfold convert
  rw [hc]
  dsimp only
  rw [hget, Option.bind_some]
  dsimp only
  split
  · obtain ⟨t, ht⟩ := printnum_total putch 10 (by decide) (-num).isLt e.padc e.width (putch 45 s)
    exact ⟨t, by rw [ht, Option.map_some]⟩
  · obtain ⟨t, ht⟩ := printnum_total putch 10 (by decide) num.isLt e.padc e.width s
    exact ⟨t, by rw [ht, Option.map_some]⟩

theorem convert_some (putch : Int → σ → σ) (fmt : Text) (hprint : PrintsErrors printfmt) (hc : conversionOf c ≠ none) (i : Nat) (e : Escape) {ks : List Kind}
    (hkinds : conversionKinds e.lflag c ++ ks <+: args.map Arg.kind) (s : σ) :
    ∃ args' t, convert putch printfmt fmt c i e args s = some (i, args', t) ∧ ks <+: args'.map Arg.kind := by
  obtain ⟨conv, hconv⟩ := Option.ne_none_iff_exists'.mp hc
  rw [conversionKinds, hconv] at hkinds
  cases conv with
  | error =>
    obtain ⟨x, args', rfl, hks⟩ := exists_word hkinds
    obtain ⟨t, ht⟩ := convert_error_some hprint hconv i e x args' s
    exact ⟨args', t, ht, hks⟩
  | char =>
    obtain ⟨x, args', rfl, hks⟩ := exists_word hkinds
    exact ⟨args', _, by unfold convert; rw [hconv], hks⟩
  | string =>
    obtain ⟨p, args', rfl, hks⟩ := exists_str hkinds
    exact ⟨args', _, by unfold convert; rw [hconv], hks⟩
  | decimal =>
    obtain ⟨num, args', hget, hks⟩ := getint_some hkinds
    obtain ⟨t, ht⟩ := convert_decimal_some putch printfmt fmt hconv i e hget s
    exact ⟨args', t, ht, hks⟩
  | unsigned =>
    obtain ⟨num, args', hget, hks⟩ := getuint_some hkinds
    obtain ⟨t, ht⟩ := printnum_total putch 10 (by decide) num.isLt e.padc e.width s
    exact ⟨args', t, by unfold convert; rw [hconv]; dsimp only; rw [hget, Option.bind_some, ht, Option.map_some], hks⟩
  | hex =>
    obtain ⟨num, args', hget, hks⟩ := getuint_some hkinds
    obtain ⟨t, ht⟩ := printnum_total putch 16 (by decide) num.isLt e.padc e.width s
    exact ⟨args', t, by unfold convert; rw [hconv]; dsimp only; rw [hget, Option.bind_some, ht, Option.map_some], hks⟩
  | pointer =>
    obtain ⟨x, args', rfl, hks⟩ := exists_word hkinds
    obtain ⟨t, ht⟩ := printnum_total putch 16 (by decide) (Nat.lt_trans x.isLt (by decide)) e.padc e.width
      (putch 120 (putch 48 s))
    exact ⟨args', t, by unfold convert; rw [hconv]; dsimp only; rw [ht, Option.map_some], hks⟩
  | octal | percent | progName => exact ⟨args, _, by unfold convert; rw [hconv], hkinds⟩

/-! ### The loop -/

/-- The flags of an escape sequence, and the character behind them -/
theorem exists_flags (h : fmt.bytes.drop i = l) (hl : l ≠ []) :
    ∃ flags c r, l = flags ++ c :: r ∧ (∀ f ∈ flags, flagOf f ≠ none) ∧ flagOf c = none := by
  obtain ⟨l', rfl, -⟩ := Text.getLast_of_drop h hl
  clear h hl
  induction l' with
  | nil => exact ⟨[], 0, [], rfl, nofun, by decide⟩
  | cons x l' ih =>
    by_cases hx : flagOf x = none
    · exact ⟨[], x, l' ++ [0], rfl, nofun, hx⟩
    · obtain ⟨flags, c, r, hsplit, hflags, hc⟩ := ih
      exact ⟨x :: flags, c, r, congrArg (x :: ·) hsplit, List.forall_mem_cons.mpr ⟨hx, hflags⟩, hc⟩

theorem percent_notMem (hflags : ∀ f ∈ flags, flagOf f ≠ none) : 37 ∉ flags := fun h => hflags 37 h (by decide)

theorem fuel_flags (h : fmt.bytes.drop i = 37 :: (flags ++ c :: r)) : flags.length < fmt.bytes.length := by
  have hlength := Text.length_of_drop h (by simp)
  simp only [List.length_cons, List.length_append] at hlength
  omega

/-- One turn at an escape sequence whose last character is known. -/
theorem loop_conversion (putch : Int → σ → σ) (hprint : PrintsErrors printfmt)
    (h : fmt.bytes.drop i = 37 :: (flags ++ c :: r))
    (hflags : ∀ f ∈ flags, flagOf f ≠ none) (hc : flagOf c = none) (hconv : conversionOf c ≠ none)
    (hkinds : kinds none (fmt.bytes.drop i) <+: args.map Arg.kind) (fuel : Nat) (s : σ) :
    ∃ args' t, loop putch printfmt fmt (fuel + 1) i args s = loop putch printfmt fmt fuel (i + 1 + flags.length + 1) args' t ∧
      kinds none r <+: args'.map Arg.kind := by
  have hdrop := Text.drop_succ h
  rw [h, kinds, if_pos rfl] at hkinds
  obtain ⟨e', hswitch, hkinds'⟩ := reswitch_flags (e := {}) flags hflags hc hdrop (fuel_flags h) hkinds
  obtain ⟨args', t, hconvert, hks⟩ := convert_some putch fmt hprint hconv (i + 1 + flags.length + 1) e' hkinds' s
  refine ⟨args', t, ?_, hks⟩
  rw [loop, Text.get_of_drop h, Option.bind_some, if_neg (by decide), hswitch, Option.bind_some]
  dsimp only
  rw [hconvert, Option.bind_some]

/-- One turn at an escape sequence whose last character is not known: the format goes on behind its `%`. -/
theorem loop_unknown (putch : Int → σ → σ) (printfmt : Text → List Arg → σ → Option σ)
    (h : fmt.bytes.drop i = 37 :: (flags ++ c :: r)) (hflags : ∀ f ∈ flags, flagOf f ≠ none)
    (hc : flagOf c = none) (hconv : conversionOf c = none) (hkinds : kinds none (fmt.bytes.drop i) <+: args.map Arg.kind)
    (fuel : Nat) (s : σ) :
    loop putch printfmt fmt (fuel + 1) i args s =
        loop putch printfmt fmt fuel (i + 1) (args.drop (flags.count 42)) (putch 37 s) ∧
      kinds none r <+: (args.drop (flags.count 42)).map Arg.kind := by
  have hdrop := Text.drop_succ h
  have hback := backUp_eq flags (percent_notMem hflags) h
  rw [h, kinds, if_pos rfl] at hkinds
  obtain ⟨e', hswitch, hkinds'⟩ := reswitch_flags (e := {}) flags hflags hc hdrop (fuel_flags h) hkinds
  rw [conversionKinds, hconv] at hkinds'
  refine ⟨?_, hkinds'⟩
  rw [loop, Text.get_of_drop h, Option.bind_some, if_neg (by decide), hswitch, Option.bind_some]
  dsimp only
  unfold convert
  rw [hconv, Nat.add_sub_cancel, hback]
  rfl

/-- The position goes on with every turn, so that the loop ends. -/
theorem loop_some (putch : Int → σ → σ) (hprint : PrintsErrors printfmt) (fuel i : Nat) (hi : i < fmt.bytes.length) (hfuel : fmt.bytes.length - i ≤ fuel)
    (hkinds : kinds none (fmt.bytes.drop i) <+: args.map Arg.kind) (s : σ) :
    ∃ t, loop putch printfmt fmt fuel i args s = some t := by
  induction fuel generalizing i args s with
  | zero => omega
  | succ fuel ih =>
    obtain ⟨c, r, hdrop⟩ := List.exists_cons_of_ne_nil (show fmt.bytes.drop i ≠ [] by simpa using hi)
    have hlength := Text.length_of_drop hdrop (List.cons_ne_nil c r)
    by_cases hc : c = 37
    · subst hc
      obtain ⟨flags, c, r', rfl, hflags, hc⟩ := exists_flags (Text.drop_succ hdrop) (Text.rest_ne_nil hdrop (by decide))
      simp only [List.length_cons, List.length_append] at hlength
      by_cases hconv : conversionOf c = none
      · -- The escape sequence is put out as text from its `%` on.
        obtain ⟨hloop, hks⟩ := loop_unknown putch printfmt hdrop hflags hc hconv hkinds fuel s
        have hc37 : c ≠ 37 := by
          rintro rfl
          exact absurd hconv (by decide)
        have hks' : kinds none (fmt.bytes.drop (i + 1)) <+: (args.drop (flags.count 42)).map Arg.kind := by
          rw [Text.drop_succ hdrop, kinds_text (percent_notMem hflags), kinds, if_neg hc37]
          exact hks
        rw [hloop]
        exact ih (i + 1) (by omega) (by omega) hks' _
      · obtain ⟨args', t, hloop, hks⟩ := loop_conversion putch hprint hdrop hflags hc hconv hkinds fuel s
        have hdrop' : fmt.bytes.drop (i + 1 + flags.length + 1) = r' :=
          Text.drop_succ (Text.drop_add (Text.drop_succ hdrop))
        have hc0 : c ≠ 0 := by
          rintro rfl
          exact hconv (by decide)
        have hpos := List.length_pos_iff.mpr (Text.rest_ne_nil (Text.drop_add (Text.drop_succ hdrop)) hc0)
        rw [hloop]
        exact ih _ (by omega) (by omega) (hdrop' ▸ hks) t
    · by_cases hzero : c = 0
      · exact ⟨s, by rw [loop, Text.get_of_drop hdrop, Option.bind_some, if_pos hc, if_pos hzero]⟩
      · have hpos := List.length_pos_iff.mpr (Text.rest_ne_nil hdrop hzero)
        rw [List.length_cons] at hlength
        rw [hdrop, kinds, if_neg hc, ← Text.drop_succ hdrop] at hkinds
        rw [loop, Text.get_of_drop hdrop, Option.bind_some, if_pos hc, if_neg hzero]
        exact ih (i + 1) (by omega) (by omega) hkinds _

/-- More turns change nothing. -/
theorem loop_mono (h : loop putch printfmt fmt fuel i args s = some t) (k : Nat) :
    loop putch printfmt fmt (fuel + k) i args s = some t := by
  induction fuel generalizing i args s with
  | zero => cases h
  | succ fuel ih =>
    rw [Nat.succ_add]
    unfold loop at h ⊢
    obtain ⟨c, hc, h⟩ := Option.bind_eq_some_iff.mp h
    rw [hc, Option.bind_some]
    split
    · next hne =>
      rw [if_pos hne] at h
      split
      · next hzero => rwa [if_pos hzero] at h
      · next hzero =>
        rw [if_neg hzero] at h
        exact ih h
    · next hne =>
      rw [if_neg hne] at h
      obtain ⟨⟨ch, j, e, args'⟩, hswitch, h⟩ := Option.bind_eq_some_iff.mp h
      obtain ⟨⟨j', args'', s'⟩, hconvert, h⟩ := Option.bind_eq_some_iff.mp h
      rw [hswitch, Option.bind_some]
      dsimp only
      rw [hconvert, Option.bind_some]
      exact ih h

/-- The formats of the error messages have no `%e`, so that one call more is enough for them. -/
theorem vprintfmt_errors (putch : Int → σ → σ) (depth : Nat) : PrintsErrors (vprintfmt putch (depth + 1)) where
  text p s := ⟨putText putch {} p s, rfl⟩
  number x s := by
    have hconvert := convert_decimal_some putch (vprintfmt putch depth) errorFormat (by decide : conversionOf 100 = some .decimal) 8 {}
      (rfl : getint 0 [.word x] = some (x.signExtend 64, []))
      (putch 32 (putch 114 (putch 111 (putch 114 (putch 114 (putch 101 s))))))
    obtain ⟨t, ht⟩ := hconvert
    refine ⟨t, ?_⟩
    show (convert putch (vprintfmt putch depth) errorFormat 100 8 {} [.word x]
      (putch 32 (putch 114 (putch 111 (putch 114 (putch 114 (putch 101 s))))))).bind _ = some t
    rw [ht]
    rfl

theorem vprintfmt_some (h : Matches fmt args) (putch : Int → σ → σ) (depth : Nat) (s : σ) :
    ∃ t, vprintfmt putch (depth + 2) fmt args s = some t := by
  have hbytes : kinds none (fmt.bytes.drop 0) <+: args.map Arg.kind := (kinds_nul none fmt.chars).symm ▸ h
  have hlength : 0 < fmt.bytes.length := by
    rw [Text.bytes, List.length_append]
    exact Nat.succ_pos _
  exact loop_some putch (vprintfmt_errors putch depth) _ 0 hlength (Nat.sub_le _ _) hbytes s

/-! ### Escape sequences that are not known -/

/-- Text is put out as it is. -/
theorem loop_text (l : List UInt8) (hl : 37 ∉ l) (h : fmt.bytes.drop i = l ++ c :: r) (fuel : Nat) (s : σ) :
    loop putch printfmt fmt (fuel + l.length) i args s =
      loop putch printfmt fmt fuel (i + l.length) args (l.foldl (fun s c => putch c.toNat s) s) := by
  induction l generalizing i s with
  | nil => rfl
  | cons d l ih =>
    have hd : d ≠ 37 := fun hd => hl (hd ▸ List.mem_cons_self)
    have hd0 : d ≠ 0 := Text.ne_zero_of_drop h (by simp)
    rw [List.length_cons, ← Nat.add_assoc, loop, Text.get_of_drop h, Option.bind_some, if_pos hd, if_neg hd0,
      ih (fun hm => hl (List.mem_cons_of_mem d hm)) (Text.drop_succ h), List.foldl_cons]
    congr 1
    omega

/-- At position `i` stands an escape sequence with the flags `flags` that ends in the character `c`, which is not known; it may be
    the NUL of the format. -/
structure UnknownAt (fmt : Text) (i : Nat) (flags : List UInt8) (c : UInt8) : Prop where
  here : ∃ r, fmt.bytes.drop i = 37 :: (flags ++ c :: r)
  flags : ∀ f ∈ flags, flagOf f ≠ none
  last : flagOf c = none
  unknown : conversionOf c = none

/-- The characters of the escape sequence in the format -/
def escapeText (flags : List UInt8) (c : UInt8) : List UInt8 := 37 :: (flags ++ if c = 0 then [] else [c])

theorem loop_echo (hprint : PrintsErrors printfmt) (h : UnknownAt fmt i flags c)
    (hkinds : kinds none (fmt.bytes.drop i) <+: args.map Arg.kind) (s : σ) :
    loop putch printfmt fmt fmt.bytes.length i args s =
      loop putch printfmt fmt fmt.bytes.length (i + (escapeText flags c).length) (args.drop (flags.count 42))
        ((escapeText flags c).foldl (fun s c => putch c.toNat s) s) := by
  obtain ⟨r, hdrop⟩ := h.here
  have hlength := Text.length_of_drop hdrop (by simp)
  obtain ⟨fuel, hfuel⟩ := Nat.exists_eq_add_one_of_ne_zero (show fmt.bytes.length ≠ 0 by simp [Text.bytes])
  obtain ⟨hloop, hks⟩ := loop_unknown putch printfmt hdrop h.flags h.last h.unknown hkinds fuel s
  have hc37 : c ≠ 37 := by
    rintro rfl
    exact absurd h.unknown (by decide)
  -- The flags, and the character behind them if it is not the NUL, are text now.
  have htext : ∃ x rest, fmt.bytes.drop (i + 1) = (flags ++ if c = 0 then [] else [c]) ++ x :: rest ∧
      kinds none (x :: rest) <+: (args.drop (flags.count 42)).map Arg.kind := by
    by_cases hc : c = 0
    · rw [if_pos hc, List.append_nil]
      refine ⟨c, r, Text.drop_succ hdrop, ?_⟩
      rw [kinds, if_neg hc37]
      exact hks
    · obtain ⟨x, rest, rfl⟩ := List.exists_cons_of_ne_nil (Text.rest_ne_nil (Text.drop_add (Text.drop_succ hdrop)) hc)
      rw [if_neg hc]
      exact ⟨x, rest, by rw [Text.drop_succ hdrop, List.append_assoc]; rfl, hks⟩
  obtain ⟨x, rest, hrest, hks'⟩ := htext
  have hnot : 37 ∉ flags ++ if c = 0 then [] else [c] := by
    intro hm
    rcases List.mem_append.mp hm with hm | hm
    · exact percent_notMem h.flags hm
    · split at hm
      · cases hm
      · exact hc37 (List.mem_singleton.mp hm).symm
  have hlen := Text.length_of_drop hrest (by simp)
  unfold escapeText
  generalize (flags ++ if c = 0 then [] else [c]) = l at hrest hnot hlen ⊢
  rw [List.length_append, List.length_cons] at hlen
  have hsplit : fuel = fuel - l.length + l.length := by omega
  have hposition : i + 1 + l.length = i + (37 :: l).length := by rw [List.length_cons]; omega
  obtain ⟨t, ht⟩ := loop_some putch hprint (fuel - l.length) (i + 1 + l.length) (by omega) (by omega)
    ((Text.drop_add hrest).symm ▸ hks') (l.foldl (fun s c => putch c.toNat s) (putch 37 s))
  rw [hfuel, hloop, hsplit, loop_text l hnot hrest, ht, ← hposition, List.foldl_cons]
  refine (loop_mono ht (l.length + 1)).symm.trans ?_
  rw [← Nat.add_assoc]
  rfl

/-- For arguments that the format takes, `vprintfmt` ends and reads nothing outside the format. It is its loop from the start of the
    format on, and wherever the loop comes to an escape sequence that is not known, the sequence is put out as it is. -/
theorem vprintfmt_ends_echoes (h : Matches fmt args) (putch : Int → σ → σ) (depth : Nat) (s : σ) :
    (∃ t, vprintfmt putch (depth + 2) fmt args s = some t) ∧
    vprintfmt putch (depth + 2) fmt args s = loop putch (vprintfmt putch (depth + 1)) fmt fmt.bytes.length 0 args s ∧
    ∀ i flags c args' s', UnknownAt fmt i flags c → kinds none (fmt.bytes.drop i) <+: args'.map Arg.kind →
      loop putch (vprintfmt putch (depth + 1)) fmt fmt.bytes.length i args' s' =
        loop putch (vprintfmt putch (depth + 1)) fmt fmt.bytes.length (i + (escapeText flags c).length)
          (args'.drop (flags.count 42)) ((escapeText flags c).foldl (fun s c => putch c.toNat s) s') :=
  ⟨vprintfmt_some h putch depth s, rfl, fun _ _ _ _ s' hu hk => loop_echo (vprintfmt_errors putch depth) hu hk s'⟩

/-- The format `a%*q` -/
def starFormat : Text := ⟨[97, 37, 42, 113], by decide⟩

theorem vprintfmt_ends_echoes_star : (∃ t, vprintfmt (fun c l => l ++ [c]) 2 starFormat [.word 5] [] = some t) ∧
    loop (fun c l => l ++ [c]) (vprintfmt (fun c l => l ++ [c]) 1) starFormat 5 1 [.word 5] [97] =
      loop (fun c l => l ++ [c]) (vprintfmt (fun c l => l ++ [c]) 1) starFormat 5 4 [] [97, 37, 42, 113] :=
  have h := vprintfmt_ends_echoes (show Matches starFormat [.word 5] by decide) (fun c l => l ++ [c]) 0 []
  ⟨h.1, h.2.2 1 [42] 113 [.word 5] [97] ⟨⟨[0], rfl⟩, List.forall_mem_singleton.mpr (by decide), by decide, by decide⟩ (by decide)⟩

end Fos.Print
