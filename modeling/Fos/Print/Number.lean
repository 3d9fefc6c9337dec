import Fos.Print.Output
import Fos.Str.Number

/-! The numeric formats `%d`, `%u` and `%x` with a width, and what they put out. -/

namespace Fos.Print
open Lib

/-! ### What is put out -/

variable {fmt : Text} {args : List Arg} {e : Escape} {r l : List UInt8} {c : UInt8} {i k n w fuel depth base num : Nat}
  {width padc : Int} {out : List Int}

theorem pad_snoc (c : Int) (n : Nat) (l : List Int) : pad snoc c n l = l ++ List.replicate n c := by
  induction n generalizing l with
  | zero => exact (List.append_nil l).symm
  | succ n ih =>
    unfold pad
    rw [ih, snoc, List.append_assoc]
    rfl

/-- The characters of a numeral -/
def numeralChars (base num : Nat) : List Int := (numeral base num).map fun c => (c.toNat : Int)

@[simp] theorem length_numeralChars : (numeralChars base num).length = (numeral base num).length := List.length_map _

/-- The padding fills the width, and the digits follow. -/
theorem printnum_eq (hbase : 1 < base) (hnum : num < base ^ depth) (hdepth : 0 < depth) (hl : -2147483648 ≤ width - depth)
    (hu : width < 2147483648) :
    printnum snoc base padc depth num width out =
      some (out ++ List.replicate (width - (numeral base num).length).toNat padc ++ numeralChars base num) := by
  induction depth generalizing num width out with
  | zero => exact absurd hdepth (Nat.lt_irrefl 0)
  | succ depth ih =>
    unfold printnum
    have hwidth : int32 (width - 1) = width - 1 := int32_eq (by omega) (by omega)
    dsimp only
    rw [hwidth]
    by_cases hge : num ≥ base
    · have hlt : num / base < base ^ depth := Nat.div_lt_of_lt_mul (by rwa [Nat.pow_succ, Nat.mul_comm] at hnum)
      have hleft : width - 1 - (numeral base (num / base)).length = width - (numeral base num).length := by
        rw [numeral_of_le hbase hge, List.length_append, List.length_singleton]
        omega
      have hchars : numeralChars base num = numeralChars base (num / base) ++ [((digit (num % base)).toNat : Int)] := by
        rw [numeralChars, numeral_of_le hbase hge, List.map_append]
        rfl
      rw [if_pos hge, ih hlt (depth_pos hnum hge) (by omega) (by omega), Option.map_some, hleft, snoc, hchars, List.append_assoc]
    · have hlt := Nat.lt_of_not_le hge
      rw [if_neg hge, Option.map_some, pad_snoc, snoc, numeralChars, numeral_of_lt hlt, Nat.mod_eq_of_lt hlt]
      rfl

/-! ### The formats -/

inductive NumberConversion where
  | decimal
  | unsigned
  | hex
  deriving DecidableEq, Repr

def NumberConversion.char : NumberConversion → UInt8
  | .decimal => 100
  | .unsigned => 117
  | .hex => 120

/-- A format of one number: padding with zeros or spaces, a width, as an argument or in the text, and flags `l` -/
structure NumberFormat where
  zero : Bool
  star : Bool
  width : Nat
  longs : Nat
  conversion : NumberConversion

namespace NumberFormat

/-- The width in the text; a width of zero is none. -/
def widthText (f : NumberFormat) : List UInt8 := if f.star then [42] else if f.width = 0 then [] else numeral 10 f.width

def widthArgs (f : NumberFormat) : List Arg := if f.star then [.word (BitVec.ofNat 32 f.width)] else []

def flags (f : NumberFormat) : List UInt8 := (if f.zero then [48] else []) ++ (f.widthText ++ List.replicate f.longs 108)

theorem zero_notMem (f : NumberFormat) : 0 ∉ 37 :: (f.flags ++ [f.conversion.char]) := by
  have hnum : (0 : UInt8) ∉ numeral 10 f.width := fun h => absurd (numeral_isDigit 0 h) (by decide)
  have hconv : f.conversion.char ≠ 0 := by cases f.conversion <;> decide
  unfold flags widthText
  simp only [List.mem_cons, List.mem_append, List.mem_replicate, List.not_mem_nil, or_false, not_or]
  refine ⟨by decide, ⟨?_, ?_, by simp⟩, hconv.symm⟩
  · split <;> simp
  · split
    · simp
    · split
      · simp
      · exact hnum

def text (f : NumberFormat) : Text := ⟨37 :: (f.flags ++ [f.conversion.char]), f.zero_notMem⟩

/-- The variables of the escape sequence at its end -/
def escape (f : NumberFormat) : Escape where
  padc := if f.zero then 48 else 32
  width := if f.star ∨ f.width ≠ 0 then f.width else -1
  lflag := f.longs

end NumberFormat

theorem reswitch_zero (h : fmt.bytes.drop i = 48 :: r) :
    reswitch fmt (fuel + 1) i e args = reswitch fmt fuel (i + 1) { e with padc := 48 } args := by
  conv_lhs => unfold reswitch
  rw [Text.get_of_drop h]
  rfl

theorem reswitch_star {x : BitVec 32} (h : fmt.bytes.drop i = 42 :: r) :
    reswitch fmt (fuel + 1) i e (.word x :: args) = reswitch fmt fuel (i + 1) (e.processPrecision x.toInt) args := by
  conv_lhs => unfold reswitch
  rw [Text.get_of_drop h]
  rfl

theorem reswitch_end (h : fmt.bytes.drop i = c :: r) (hc : flagOf c = none) :
    reswitch fmt (fuel + 1) i e args = some (c, i + 1, e, args) := by
  unfold reswitch
  rw [Text.get_of_drop h, Option.bind_some, hc]

theorem reswitch_longs (h : fmt.bytes.drop i = List.replicate k 108 ++ r) (hl : -2147483648 ≤ e.lflag)
    (hu : e.lflag + k < 2147483648) :
    reswitch fmt (fuel + k) i e args = reswitch fmt fuel (i + k) { e with lflag := e.lflag + k } args := by
  induction k generalizing i e with
  | zero => simp
  | succ k ih =>
    have hstep : reswitch fmt (fuel + k + 1) i e args = reswitch fmt (fuel + k) (i + 1) { e with lflag := int32 (e.lflag + 1) } args := by
      conv_lhs => unfold reswitch
      rw [Text.get_of_drop h]
      rfl
    have hlong : int32 (e.lflag + 1) = e.lflag + 1 := int32_eq (by omega) (by omega)
    rw [← Nat.add_assoc, hstep, hlong, ih (Text.drop_succ h) (by dsimp only; omega) (by dsimp only; omega)]
    dsimp only
    congr 1
    · omega
    · congr 1
      omega

/-- The digits of a numeral as they are read -/
theorem foldl_numeral (hw : w < 2147483648) :
    (numeral 10 w).foldl (fun (v : Int) d => int32 (v * 10 + d.toNat - 48)) 0 = w := by
  induction w using numeral_induction (b := 10) (by decide) with
  | first w h =>
    rw [numeral_of_lt h, List.foldl_cons, List.foldl_nil, toNat_digit w h, int32_eq] <;> push_cast <;> omega
  | next w h ih =>
    have hmod := toNat_digit (w % 10) (Nat.mod_lt _ (by decide))
    rw [numeral_of_le (by decide) h, List.foldl_append, ih (by omega), List.foldl_cons, List.foldl_nil, hmod, int32_eq] <;>
      push_cast <;> omega

theorem flagOf_digit (hc : IsDigit c) (hne : c ≠ 48) : flagOf c = some .digit := by
  have hnot : ¬ (c < 48 ∨ 57 < c) := not_or.mpr ⟨UInt8.not_lt.mpr hc.1, UInt8.not_lt.mpr hc.2⟩
  rw [flagOf_digit_iff] at hnot
  unfold flagOf at hnot ⊢
  grind

theorem reswitch_width (hw : 0 < w) (hlt : w < 2147483648) (h : fmt.bytes.drop i = numeral 10 w ++ c :: r)
    (hc : c < 48 ∨ 57 < c) :
    reswitch fmt (fuel + 1) i e args = reswitch fmt fuel (i + (numeral 10 w).length) (e.processPrecision w) args := by
  have hvalue := foldl_numeral hlt
  have hhead := numeral_head hw
  have hdigits := numeral_isDigit (n := w)
  obtain ⟨d, ds, hcons⟩ := List.exists_cons_of_ne_nil (numeral_ne_nil (b := 10) (n := w))
  rw [hcons] at h hvalue hhead hdigits ⊢
  have hd : flagOf d = some .digit := flagOf_digit (hdigits d List.mem_cons_self) fun h48 => hhead (congrArg some h48)
  have hds : ∀ x ∈ ds, ¬ (x < 48 ∨ 57 < x) := fun x hx =>
    have hx := hdigits x (List.mem_cons_of_mem d hx)
    not_or.mpr ⟨UInt8.not_lt.mpr hx.1, UInt8.not_lt.mpr hx.2⟩
  have hlength := Text.length_of_drop h (by simp)
  have hfuel : ds.length < fmt.bytes.length := by
    simp only [List.cons_append, List.length_cons, List.length_append] at hlength
    omega
  conv_lhs => unfold reswitch
  rw [Text.get_of_drop h, Option.bind_some, hd]
  dsimp only
  rw [fieldWidth_eq ds hds hc (Text.drop_succ h) hfuel, hvalue, Option.bind_some, List.length_cons]
  congr 1
  omega

section Flags
variable (f : NumberFormat)

theorem reswitch_padding (args : List Arg) (h : fmt.bytes.drop i = (if f.zero then [48] else []) ++ (l ++ r))
    (hfuel : ((if f.zero then [48] else []) ++ l).length < fuel) :
    ∃ fuel', l.length < fuel' ∧ reswitch fmt fuel i {} args =
      reswitch fmt fuel' (i + (if f.zero then [(48 : UInt8)] else []).length) { padc := if f.zero then 48 else 32 } args := by
  cases hzero : f.zero with
  | false =>
    rw [hzero] at hfuel
    exact ⟨fuel, hfuel, rfl⟩
  | true =>
    rw [hzero] at h hfuel
    obtain ⟨fuel, rfl⟩ := Nat.exists_eq_add_one_of_ne_zero (Nat.ne_of_gt (Nat.zero_lt_of_lt hfuel))
    exact ⟨fuel, Nat.lt_of_succ_lt_succ hfuel, reswitch_zero h⟩

theorem toInt_width (hw : w < 2147483648) : (BitVec.ofNat 32 w).toInt = w := by
  have hnat : (BitVec.ofNat 32 w).toNat = w := by
    rw [BitVec.toNat_ofNat]
    exact Nat.mod_eq_of_lt (by omega)
  rw [BitVec.toInt_eq_toNat_of_lt (by rw [hnat]; omega), hnat]

theorem reswitch_widthText (args : List Arg) (hw : f.width < 2147483648) (h : fmt.bytes.drop i = f.widthText ++ (l ++ r))
    (hnext : ∃ x rest, l ++ r = x :: rest ∧ (x < 48 ∨ 57 < x)) (hfuel : (f.widthText ++ l).length < fuel) (padc : Int) :
    ∃ fuel', l.length < fuel' ∧ reswitch fmt fuel i { padc := padc } (f.widthArgs ++ args) =
      reswitch fmt fuel' (i + f.widthText.length)
        { padc := padc, width := if f.star ∨ f.width ≠ 0 then f.width else -1 } args := by
  rw [List.length_append] at hfuel
  obtain ⟨fuel, rfl⟩ := Nat.exists_eq_add_one_of_ne_zero (Nat.ne_of_gt (Nat.zero_lt_of_lt hfuel))
  unfold NumberFormat.widthText NumberFormat.widthArgs at *
  cases hstar : f.star with
  | true =>
    simp only [hstar, if_true, List.length_singleton] at h hfuel ⊢
    refine ⟨fuel, by omega, ?_⟩
    have hstep : reswitch fmt (fuel + 1) i { padc := padc } (.word (BitVec.ofNat 32 f.width) :: args) =
        reswitch fmt fuel (i + 1) (({ padc := padc } : Escape).processPrecision (BitVec.ofNat 32 f.width).toInt) args :=
      reswitch_star h
    rw [toInt_width hw] at hstep
    simpa [Escape.processPrecision] using hstep
  | false =>
    simp only [hstar, Bool.false_eq_true, if_false, false_or, List.nil_append] at h hfuel ⊢
    by_cases hzero : f.width = 0
    · simp only [hzero, if_true, List.length_nil, ne_eq, not_true_eq_false, if_false] at h hfuel ⊢
      exact ⟨fuel + 1, by omega, rfl⟩
    · obtain ⟨x, rest, hx, hx'⟩ := hnext
      simp only [hzero, if_false, ne_eq, not_false_eq_true, if_true] at h hfuel ⊢
      have hpos := numeral_length_pos (b := 10) (n := f.width)
      refine ⟨fuel, by omega, ?_⟩
      rw [hx] at h
      exact reswitch_width (Nat.pos_of_ne_zero hzero) hw h hx'

/-- The escape sequence of a format of one number is passed. -/
theorem reswitch_number (hw : f.width < 2147483648) (hlongs : f.longs < 2147483648) (args : List Arg)
    (hfuel : f.flags.length < fuel) :
    reswitch f.text fuel 1 {} (f.widthArgs ++ args) = some (f.conversion.char, 1 + f.flags.length + 1, f.escape, args) := by
  have hdrop : f.text.bytes.drop 1 = f.flags ++ f.conversion.char :: [0] := by
    simp [NumberFormat.text, Text.bytes]
  have hchar : f.conversion.char < 48 ∨ 57 < f.conversion.char := by cases f.conversion <;> decide
  have hflag : flagOf f.conversion.char = none := by cases f.conversion <;> decide
  unfold NumberFormat.flags at *
  obtain ⟨fuel₁, hfuel₁, h₁⟩ := reswitch_padding f (f.widthArgs ++ args) (by rwa [List.append_assoc] at hdrop) hfuel
  have hdrop₁ := Text.drop_add (by rwa [List.append_assoc] at hdrop)
  have hnext : ∃ x rest, List.replicate f.longs 108 ++ f.conversion.char :: [0] = x :: rest ∧ (x < 48 ∨ 57 < x) := by
    cases f.longs with
    | zero => exact ⟨_, _, rfl, hchar⟩
    | succ k => exact ⟨108, _, rfl, by decide⟩
  rw [List.append_assoc] at hdrop₁
  obtain ⟨fuel₂, hfuel₂, h₂⟩ := reswitch_widthText f args hw hdrop₁ hnext hfuel₁ (if f.zero then 48 else 32)
  have hdrop₂ := Text.drop_add hdrop₁
  have hdrop₃ := Text.drop_add hdrop₂
  rw [List.length_replicate] at hfuel₂ hdrop₃
  obtain ⟨fuel₃, rfl⟩ : ∃ fuel₃, fuel₂ = fuel₃ + 1 + f.longs := ⟨fuel₂ - 1 - f.longs, by omega⟩
  rw [h₁, h₂, reswitch_longs hdrop₂ (by dsimp only; omega) (by dsimp only; omega), reswitch_end hdrop₃ hflag]
  simp only [List.length_append, List.length_replicate, NumberFormat.escape, Int.zero_add, Nat.add_assoc]

end Flags

/-! ### Widths -/

def Arg.toNat : Arg → Nat
  | .word x => x.toNat
  | .wide x => x.toNat
  | .str _ => 0

def Arg.toInt : Arg → Int
  | .word x => x.toInt
  | .wide x => x.toInt
  | .str _ => 0

namespace NumberFormat

/-- The character of the padding -/
def padChar (f : NumberFormat) : Int := if f.zero then 48 else 32

/-- The kind of number that the flags `l` ask for -/
def kind (f : NumberFormat) : Kind := if f.longs ≥ 2 then .wide else .word

/-- The numeral of the number, with its sign -/
def numeralText (f : NumberFormat) (a : Arg) : List Int :=
  match f.conversion with
  | .decimal => (Str.decimal a.toInt).map fun c => (c.toNat : Int)
  | .unsigned => numeralChars 10 a.toNat
  | .hex => numeralChars 16 a.toNat

/-- The numeral behind the padding that fills the width -/
def padded (f : NumberFormat) (a : Arg) : List Int :=
  List.replicate (f.width - (f.numeralText a).length) f.padChar ++ f.numeralText a

end NumberFormat

/-- What follows the escape sequence is the end of the format. -/
theorem output_number (f : NumberFormat) (hw : f.width < 2147483648) (hlongs : f.longs < 2147483648) (a : Arg) {s : List Int}
    (hconvert : convert snoc (vprintfmt snoc depth) f.text f.conversion.char (1 + f.flags.length + 1) f.escape [a] [] =
      some (1 + f.flags.length + 1, [], s)) : output (depth + 1) f.text (f.widthArgs ++ [a]) = some s := by
  have hdrop : f.text.bytes.drop 0 = 37 :: (f.flags ++ [f.conversion.char, 0]) := by
    simp [NumberFormat.text, Text.bytes]
  have hend : f.text.bytes.drop (1 + f.flags.length + 1) = [0] :=
    Text.drop_succ (Text.drop_add (Text.drop_succ hdrop))
  have hlength : f.text.bytes.length = f.flags.length + 1 + 1 + 1 := by simp [NumberFormat.text, Text.bytes]
  have hswitch : reswitch f.text f.text.bytes.length 1 {} (f.widthArgs ++ [a]) = _ := reswitch_number f hw hlongs [a] (by omega)
  unfold output vprintfmt
  rw [hlength] at hswitch ⊢
  unfold loop
  rw [Text.get_of_drop hdrop, Option.bind_some, if_neg (by decide), hlength, hswitch, Option.bind_some]
  dsimp only
  rw [hconvert, Option.bind_some]
  unfold loop
  rw [Text.get_of_drop hend]
  rfl

theorem printnum_number (f : NumberFormat) (hw : f.width < 2147483648) (hbase : 10 ≤ base) (hnum : num < 2 ^ 64) (out : List Int) :
    printnum snoc base f.escape.padc 64 num f.escape.width out =
      some (out ++ List.replicate (f.width - (numeral base num).length) f.padChar ++ numeralChars base num) := by
  have hpow : 10 ^ 64 ≤ base ^ 64 := Nat.pow_le_pow_left hbase 64
  have hpos := numeral_length_pos (b := base) (n := num)
  have hwidth : -1 ≤ f.escape.width ∧ f.escape.width < 2147483648 ∧
      (f.escape.width - (numeral base num).length).toNat = f.width - (numeral base num).length := by
    unfold NumberFormat.escape
    dsimp only
    split
    · omega
    · omega
  rw [printnum_eq (by omega) (by omega) (by decide) (by omega) hwidth.2.1, hwidth.2.2]
  rfl

/-- The argument has the width that the flags ask for. -/
theorem number_arg {f : NumberFormat} {a : Arg} (ha : a.kind = f.kind) :
    (f.escape.lflag ≥ 2 ∧ ∃ x, a = .wide x) ∨ (¬ f.escape.lflag ≥ 2 ∧ ∃ x, a = .word x) := by
  have hflag : f.escape.lflag ≥ 2 ↔ f.longs ≥ 2 := Nat.ofNat_le_cast
  have hkinds : (if f.escape.lflag ≥ 2 then Kind.wide else Kind.word) :: [] <+: [a].map Arg.kind := by
    simp only [hflag, List.map_cons, List.map_nil, ha, NumberFormat.kind]
    exact List.prefix_rfl
  obtain ⟨b, args, hb, -, hcases⟩ := exists_number hkinds
  cases hb
  exact hcases

/-- The number that `getuint` takes -/
theorem getuint_number {f : NumberFormat} {a : Arg} (ha : a.kind = f.kind) :
    ∃ num, getuint f.escape.lflag [a] = some (num, []) ∧ num.toNat = a.toNat := by
  rcases number_arg ha with ⟨hl, x, rfl⟩ | ⟨hl, x, rfl⟩
  · exact ⟨x, if_pos hl, rfl⟩
  · refine ⟨x.setWidth 64, if_neg hl, ?_⟩
    rw [BitVec.toNat_setWidth]
    exact Nat.mod_eq_of_lt (Nat.lt_trans x.isLt (by decide))

/-- The number that `getint` takes -/
theorem getint_number {f : NumberFormat} {a : Arg} (ha : a.kind = f.kind) :
    ∃ num, getint f.escape.lflag [a] = some (num, []) ∧ num.toInt = a.toInt := by
  rcases number_arg ha with ⟨hl, x, rfl⟩ | ⟨hl, x, rfl⟩
  · exact ⟨x, if_pos hl, rfl⟩
  · exact ⟨x.signExtend 64, if_neg hl, BitVec.toInt_signExtend_of_le (by decide)⟩

theorem toNat_of_nonneg {x : BitVec 64} (h : ¬ x.toInt < 0) : x.toNat = x.toInt.natAbs := by
  have hx := x.isLt
  rw [BitVec.toInt_eq_toNat_cond] at h ⊢
  split at h <;> omega

/-- The negation gives the magnitude, for the least number too. -/
theorem toNat_neg_of_neg {x : BitVec 64} (h : x.toInt < 0) : (-x).toNat = x.toInt.natAbs := by
  have hx := x.isLt
  rw [BitVec.toInt_eq_toNat_cond] at h ⊢
  rw [BitVec.toNat_neg]
  split at h <;> omega

/-- The output for a number that is not negative, or that has no sign -/
theorem output_padded (f : NumberFormat) (hw : f.width < 2147483648) (hlongs : f.longs < 2147483648) {a : Arg}
    (ha : a.kind = f.kind) (hsign : f.conversion = .decimal → 0 ≤ a.toInt) :
    output (depth + 1) f.text (f.widthArgs ++ [a]) = some (f.padded a) := by
  refine output_number f hw hlongs a ?_
  unfold convert NumberFormat.padded NumberFormat.numeralText
  cases hconv : f.conversion with
  | decimal =>
    obtain ⟨num, hget, hnum⟩ := getint_number ha
    have hnonneg : ¬ num.toInt < 0 := by
      have := hsign hconv
      omega
    have hval : num.toNat = a.toInt.natAbs := hnum ▸ toNat_of_nonneg hnonneg
    rw [show conversionOf NumberConversion.decimal.char = some .decimal from by decide]
    dsimp only
    rw [hget, Option.bind_some]
    dsimp only
    rw [if_neg hnonneg, printnum_number f hw (by decide) num.isLt, Option.map_some, List.nil_append, hval, Str.decimal,
      if_neg (by omega), numeralChars, List.length_map]
  | unsigned =>
    obtain ⟨num, hget, hnum⟩ := getuint_number ha
    rw [show conversionOf NumberConversion.unsigned.char = some .unsigned from by decide]
    dsimp only
    rw [hget, Option.bind_some]
    dsimp only
    rw [printnum_number f hw (by decide) num.isLt, Option.map_some, List.nil_append, hnum, length_numeralChars]
  | hex =>
    obtain ⟨num, hget, hnum⟩ := getuint_number ha
    rw [show conversionOf NumberConversion.hex.char = some .hex from by decide]
    dsimp only
    rw [hget, Option.bind_some]
    dsimp only
    rw [printnum_number f hw (by decide) num.isLt, Option.map_some, List.nil_append, hnum, length_numeralChars]

/-- The output for a negative number: the sign stands in front of the padding and is not counted. -/
theorem output_negative (f : NumberFormat) (hw : f.width < 2147483648) (hlongs : f.longs < 2147483648) {a : Arg}
    (ha : a.kind = f.kind) (hconv : f.conversion = .decimal) (hneg : a.toInt < 0) :
    output (depth + 1) f.text (f.widthArgs ++ [a]) =
      some ([45] ++ List.replicate (f.width - (numeral 10 a.toInt.natAbs).length) f.padChar ++ numeralChars 10 a.toInt.natAbs) := by
  refine output_number f hw hlongs a ?_
  obtain ⟨num, hget, hnum⟩ := getint_number ha
  have hval : (-num).toNat = a.toInt.natAbs := hnum ▸ toNat_neg_of_neg (by omega)
  unfold convert
  rw [hconv, show conversionOf NumberConversion.decimal.char = some .decimal from by decide]
  dsimp only
  rw [hget, Option.bind_some]
  dsimp only
  rw [if_pos (by omega), printnum_number f hw (by decide) (-num).isLt, Option.map_some, hval]
  rfl

/-- A format with a width puts out the numeral behind its padding, but for a negative `%d` that the width would pad. -/
theorem number_width_iff (f : NumberFormat) (hw : f.width < 2147483648) (hlongs : f.longs < 2147483648) (a : Arg)
    (ha : a.kind = f.kind) (depth : Nat) :
    output (depth + 1) f.text (f.widthArgs ++ [a]) = some (f.padded a) ↔
      ¬ (f.conversion = .decimal ∧ a.toInt < 0 ∧ (numeral 10 a.toInt.natAbs).length < f.width) := by
  by_cases hneg : f.conversion = .decimal ∧ a.toInt < 0
  · obtain ⟨hconv, hneg⟩ := hneg
    have hnumeral : f.numeralText a = [45] ++ numeralChars 10 a.toInt.natAbs := by
      unfold NumberFormat.numeralText
      rw [hconv, Str.decimal, if_pos hneg]
      rfl
    rw [output_negative f hw hlongs ha hconv hneg, Option.some.injEq, NumberFormat.padded, hnumeral]
    constructor
    · rintro heq ⟨-, -, hlt⟩
      have hlength := congrArg List.length heq
      simp only [List.length_append, List.length_replicate, List.length_singleton, length_numeralChars] at hlength
      omega
    · intro hle
      have hle : f.width ≤ (numeral 10 a.toInt.natAbs).length := by
        by_contra hgt
        exact hle ⟨hconv, hneg, by omega⟩
      have hnone : f.width - (numeral 10 a.toInt.natAbs).length = 0 := by omega
      have hnone' : f.width - ([45] ++ numeralChars 10 a.toInt.natAbs).length = 0 := by
        rw [List.length_append, length_numeralChars]
        omega
      rw [hnone, hnone']
      rfl
  · refine iff_of_true (output_padded f hw hlongs ha fun hconv => ?_) fun h => hneg ⟨h.1, h.2.1⟩
    by_contra hlt
    exact hneg ⟨hconv, by omega⟩

/-- The format `%05d` -/
def fiveDigits : NumberFormat := ⟨true, false, 5, 0, .decimal⟩

theorem number_width_iff_five : output 1 fiveDigits.text [.word 42] = some (fiveDigits.padded (.word 42)) ↔
    ¬ (fiveDigits.conversion = .decimal ∧ (Arg.word 42).toInt < 0 ∧ (numeral 10 (Arg.word 42).toInt.natAbs).length < fiveDigits.width) :=
  number_width_iff fiveDigits (by decide) (by decide) (.word 42) rfl 0

/-- `%05d` puts out `-00042` for `-42`, six characters. -/
theorem number_width_wrong : output 1 fiveDigits.text [.word (-42)] = some [45, 48, 48, 48, 52, 50] ∧
    fiveDigits.padded (.word (-42)) = [48, 48, 45, 52, 50] := by
  refine ⟨?_, by decide⟩
  exact output_negative fiveDigits (by decide) (by decide) (a := .word (-42)) rfl rfl (by decide)

end Fos.Print
