import Fos.Lib.Numeral
import Fos.Types

/-! `vprintfmt` and `printnum` (`lib/printfmt.c`). The flag `printProgName`, which `%~` and `%@` set, is left out. A `char` is
    signed. -/

namespace Fos.Print
open Lib

/-- A string: the characters before its NUL -/
structure Text where
  chars : List UInt8
  nonzero : 0 ∉ chars

/-- The string with its NUL -/
def Text.bytes (s : Text) : List UInt8 := s.chars ++ [0]

/-- `s[i]`; `none` behind the NUL -/
def Text.get (s : Text) (i : Nat) : Option UInt8 := s.bytes[i]?

/-- What `va_arg` finds: four bytes, eight bytes, or a pointer to a string or null -/
inductive Arg where
  | word (x : BitVec 32)
  | wide (x : BitVec 64)
  | str (s : Option Text)

/-! ### The escape sequences -/

/-- The characters after which `vprintfmt` goes on with the switch -/
inductive Flag where
  | left
  | zero
  | digit
  | star
  | dot
  | alt
  | long
  deriving DecidableEq, Repr

def flagOf (c : UInt8) : Option Flag :=
  if c = 45 then some .left
  else if c = 48 then some .zero
  else if 49 ≤ c ∧ c ≤ 57 then some .digit
  else if c = 42 then some .star
  else if c = 46 then some .dot
  else if c = 35 then some .alt
  else if c = 108 then some .long
  else none

/-- The characters that end an escape sequence: `c e s d u o p x %`, and `~` or `@` -/
inductive Conversion where
  | char
  | error
  | string
  | decimal
  | unsigned
  | octal
  | pointer
  | hex
  | percent
  | progName
  deriving DecidableEq, Repr

def conversionOf (c : UInt8) : Option Conversion :=
  if c = 99 then some .char
  else if c = 101 then some .error
  else if c = 115 then some .string
  else if c = 100 then some .decimal
  else if c = 117 then some .unsigned
  else if c = 111 then some .octal
  else if c = 112 then some .pointer
  else if c = 120 then some .hex
  else if c = 37 then some .percent
  else if c = 126 ∨ c = 64 then some .progName
  else none

/-- The variables of an escape sequence -/
structure Escape where
  padc : Int := 32
  width : Int := -1
  precision : Int := -1
  lflag : Int := 0
  altflag : Bool := false

/-- `process_precision` -/
def Escape.processPrecision (e : Escape) (precision : Int) : Escape :=
  if e.width < 0 then { e with width := precision, precision := -1 } else { e with precision := precision }

/-- The loop over the digits of a width, where `ch` is the first one and `i` is behind it; `none`, here and below, if the
    string is read behind its NUL, or if the loop does not end within `fuel` turns. -/
def fieldWidth (fmt : Text) : Nat → Nat → Int → UInt8 → Option (Int × Nat)
  | 0, _, _, _ => none
  | fuel + 1, i, precision, ch =>
    let precision := int32 (precision * 10 + ch.toNat - 48)
    (fmt.get i).bind fun c => if c < 48 ∨ 57 < c then some (precision, i) else fieldWidth fmt fuel (i + 1) precision c

/-- The turns of `reswitch` up to the character that ends the escape sequence, with the position behind it; `none` too if an
    argument is missing. -/
def reswitch (fmt : Text) : Nat → Nat → Escape → List Arg → Option (UInt8 × Nat × Escape × List Arg)
  | 0, _, _, _ => none
  | fuel + 1, i, e, args =>
    (fmt.get i).bind fun ch =>
      match flagOf ch with
      | some .left => reswitch fmt fuel (i + 1) { e with padc := 45 } args
      | some .zero => reswitch fmt fuel (i + 1) { e with padc := 48 } args
      | some .digit =>
        (fieldWidth fmt (fmt.bytes.length) (i + 1) 0 ch).bind fun (precision, i) =>
          reswitch fmt fuel i (e.processPrecision precision) args
      | some .star =>
        match args with
        | .word x :: args => reswitch fmt fuel (i + 1) (e.processPrecision x.toInt) args
        | _ => none
      | some .dot => reswitch fmt fuel (i + 1) { e with width := if e.width < 0 then 0 else e.width } args
      | some .alt => reswitch fmt fuel (i + 1) { e with altflag := true } args
      | some .long => reswitch fmt fuel (i + 1) { e with lflag := int32 (e.lflag + 1) } args
      | none => some (ch, i + 1, e, args)

/-- `for (fmt--; fmt[-1] != '%'; fmt--)`, from the position after the first decrement on; `none` if a character in front of the
    string is read. -/
def backUp (fmt : Text) : Nat → Option Nat
  | 0 => none
  | i + 1 => (fmt.get i).bind fun c => if c = 37 then some (i + 1) else backUp fmt i

/-- `getuint(ap, lflag)` -/
def getuint (lflag : Int) : List Arg → Option (BitVec 64 × List Arg)
  | .wide x :: args => if lflag ≥ 2 then some (x, args) else none
  | .word x :: args => if lflag ≥ 2 then none else some (x.setWidth 64, args)
  | _ => none

/-- `getint(ap, lflag)` -/
def getint (lflag : Int) : List Arg → Option (BitVec 64 × List Arg)
  | .wide x :: args => if lflag ≥ 2 then some (x, args) else none
  | .word x :: args => if lflag ≥ 2 then none else some (x.signExtend 64, args)
  | _ => none

/-- `error_string` -/
def errorStrings : List (Option Text) :=
  [none,
   some ⟨"unspecified error".toList.map Char.toUInt8, by decide⟩,
   some ⟨"bad environment".toList.map Char.toUInt8, by decide⟩,
   some ⟨"invalid parameter".toList.map Char.toUInt8, by decide⟩,
   some ⟨"out of memory".toList.map Char.toUInt8, by decide⟩,
   some ⟨"out of environments".toList.map Char.toUInt8, by decide⟩,
   some ⟨"segmentation fault".toList.map Char.toUInt8, by decide⟩]

/-- `MAXERROR` -/
def maxError : Int := 100

/-- `error_string[err]`: elements without a text are null. The address of an element of four bytes wraps. -/
def errorString (err : Int) : Option (Option Text) :=
  if err % 1073741824 ≤ maxError then some (errorStrings[(err % 1073741824).toNat]?.join) else none

def nullString : Text := ⟨"(null)".toList.map Char.toUInt8, by decide⟩
def errorFormat : Text := ⟨"error %d".toList.map Char.toUInt8, by decide⟩
def stringFormat : Text := ⟨"%s".toList.map Char.toUInt8, by decide⟩

/-! ### The output -/

section Output
variable {σ : Type} (putch : Int → σ → σ)

/-- `n` calls of `putch(c)` -/
def pad (c : Int) : Nat → σ → σ
  | 0, s => s
  | n + 1, s => pad c n (putch c s)

/-- `printnum`; the first argument bounds the depth of its calls. Its loop `while (--width > 0)` has the turns that the width
    leaves. -/
def printnum (base : Nat) (padc : Int) : Nat → Nat → Int → σ → Option σ
  | 0, _, _, _ => none
  | depth + 1, num, width, s =>
    let first :=
      if num ≥ base then printnum base padc depth (num / base) (int32 (width - 1)) s
      else some (pad putch padc (int32 (width - 1)).toNat s)
    first.map fun s => putch (digit (num % base)).toNat s

/-- A character of a string as an `int` -/
def charOf (c : UInt8) : Int := if c < 128 then c.toNat else c.toNat - 256

/-- The loop over the characters of a `%s`, with the width that is left -/
def putString (altflag : Bool) : List UInt8 → Int → Int → σ → σ × Int
  | [], _, width, s => (s, width)
  | c :: cs, precision, width, s =>
    let left := if precision < 0 then precision else precision - 1
    if precision < 0 ∨ left ≥ 0 then
      putString altflag cs left (int32 (width - 1))
        (putch (if altflag = true ∧ (charOf c < 32 ∨ 126 < charOf c) then 63 else charOf c) s)
    else (s, width)

/-- `strnlen(p, precision)`, whose second parameter is unsigned -/
def strnlen (p : Text) (precision : Int) : Int := int32 (min p.chars.length (precision % 4294967296).toNat : Nat)

/-- The case of a `%s` -/
def putText (e : Escape) (p : Text) (s : σ) : σ :=
  let (s, width) :=
    if e.width > 0 ∧ e.padc ≠ 45 then
      let width := int32 (e.width - strnlen p e.precision)
      (pad putch e.padc width.toNat s, min width 0)
    else (s, e.width)
  let (s, width) := putString putch e.altflag p.chars e.precision width s
  pad putch 32 width.toNat s

/-- The switch of `vprintfmt` for the character `ch` that ends an escape sequence and is in front of position `i`: the position
    where the format goes on, and the arguments that are left. `printfmt` stands for the function. -/
def convert (printfmt : Text → List Arg → σ → Option σ) (fmt : Text) (ch : UInt8) (i : Nat) (e : Escape) (args : List Arg)
    (s : σ) : Option (Nat × List Arg × σ) :=
  match conversionOf ch with
  | some .char =>
    match args with
    | .word x :: args => some (i, args, putch x.toInt s)
    | _ => none
  | some .error =>
    match args with
    | .word x :: args =>
      let err := if x.toInt < 0 then int32 (-x.toInt) else x.toInt
      let number := (printfmt errorFormat [.word (BitVec.ofInt 32 err)] s).map fun s => (i, args, s)
      if err > maxError then number
      else
        (errorString err).bind fun p =>
          match p with
          | none => number
          | some p => (printfmt stringFormat [.str (some p)] s).map fun s => (i, args, s)
    | _ => none
  | some .string =>
    match args with
    | .str p :: args => some (i, args, putText putch e (p.getD nullString) s)
    | _ => none
  | some .decimal =>
    (getint e.lflag args).bind fun (num, args) =>
      if num.toInt < 0 then
        (printnum putch 10 e.padc 64 (-num).toNat e.width (putch 45 s)).map fun s => (i, args, s)
      else (printnum putch 10 e.padc 64 num.toNat e.width s).map fun s => (i, args, s)
  | some .unsigned =>
    (getuint e.lflag args).bind fun (num, args) =>
      (printnum putch 10 e.padc 64 num.toNat e.width s).map fun s => (i, args, s)
  | some .octal => some (i, args, putch 88 (putch 88 (putch 88 s)))
  | some .pointer =>
    match args with
    | .word x :: args =>
      (printnum putch 16 e.padc 64 x.toNat e.width (putch 120 (putch 48 s))).map fun s => (i, args, s)
    | _ => none
  | some .hex =>
    (getuint e.lflag args).bind fun (num, args) =>
      (printnum putch 16 e.padc 64 num.toNat e.width s).map fun s => (i, args, s)
  | some .percent => some (i, args, putch ch.toNat s)
  | some .progName => some (i, args, s)
  | none => (backUp fmt (i - 1)).map fun i => (i, args, putch 37 s)

/-- The loop of `vprintfmt` from position `i` of the format on -/
def loop (printfmt : Text → List Arg → σ → Option σ) (fmt : Text) : Nat → Nat → List Arg → σ → Option σ
  | 0, _, _, _ => none
  | fuel + 1, i, args, s =>
    (fmt.get i).bind fun ch =>
      if ch ≠ 37 then if ch = 0 then some s else loop printfmt fmt fuel (i + 1) args (putch ch.toNat s)
      else
        (reswitch fmt fmt.bytes.length (i + 1) {} args).bind fun (ch, i, e, args) =>
          (convert putch printfmt fmt ch i e args s).bind fun (i, args, s) => loop printfmt fmt fuel i args s

/-- `vprintfmt(putch, putdat, fmt, ap)`; the first argument bounds the depth of the calls of `printfmt`. -/
def vprintfmt : Nat → Text → List Arg → σ → Option σ
  | 0, _, _, _ => none
  | depth + 1, fmt, args, s => loop putch (vprintfmt depth) fmt fmt.bytes.length 0 args s

end Output

end Fos.Print
