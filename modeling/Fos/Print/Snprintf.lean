import Fos.Lib.Blocks
import Fos.Print.Number

/-! `vsnprintf` (`lib/printfmt.c`). -/

namespace Fos.Print
open Lib

variable {β : Type} [DecidableEq β]

/-- `struct sprintbuf`, with the memory that it points to -/
structure SprintBuf (β : Type) where
  mem : Blocks β
  buf : Ptr β
  ebuf : Ptr β
  cnt : Int

/-- `sprintputch`; `none`, here and below, if a write is outside its block. The two pointers are in one block. -/
def sprintputch (ch : Int) (b : Option (SprintBuf β)) : Option (SprintBuf β) :=
  b.bind fun b =>
    let b := { b with cnt := int32 (b.cnt + 1) }
    if b.buf.offset < b.ebuf.offset then (b.mem.store b.buf (UInt8.ofInt ch)).map fun m => { b with mem := m, buf := b.buf + 1 }
    else some b

/-- `vsnprintf(buf, n, fmt, ap)`, where a null pointer is no pointer; `E_INVAL` is -3. -/
def vsnprintf (depth : Nat) (m : Blocks β) (buf : Option (Ptr β)) (n : Int) (fmt : Text) (args : List Arg) :
    Option (Blocks β × Int) :=
  match buf with
  | none => some (m, 3)
  | some buf =>
    if n < 1 then some (m, 3)
    else
      (vprintfmt sprintputch depth fmt args (some ⟨m, buf, buf + (n - 1).toNat, 0⟩)).join.bind fun b =>
        (b.mem.store b.buf 0).map fun m => (m, b.cnt)

/-- The characters of an output as bytes -/
def bytesOf (out : List Int) : List UInt8 := out.map UInt8.ofInt

/-- The structure after the output `out`: what fits into the buffer is written, and the rest is counted. -/
def afterOutput (m : Blocks β) (buf : Ptr β) (n : Nat) (out : List Int) : SprintBuf β :=
  ⟨m.put buf ((bytesOf out).take n), buf + min n out.length, buf + n, int32 out.length⟩

variable {m : Blocks β} {buf : Ptr β} {n : Nat} {out : List Int} {fmt : Text} {args : List Arg}

theorem sprintputch_eq (hfits : buf.offset + n < m.size buf.block) (ch : Int) :
    sprintputch ch (some (afterOutput m buf n out)) = some (afterOutput m buf n (out ++ [ch])) := by
  have hcnt : int32 (int32 out.length + 1) = int32 (out ++ [ch]).length := by
    rw [List.length_append, List.length_singleton]
    unfold int32
    rw [Int.bmod_add_bmod]
    rfl
  have hbytes : bytesOf (out ++ [ch]) = bytesOf out ++ [UInt8.ofInt ch] := List.map_append
  have hlength : (bytesOf out).length = out.length := List.length_map _
  unfold sprintputch afterOutput
  rw [Option.bind_some]
  dsimp only
  rw [hcnt, hbytes]
  by_cases hlt : out.length < n
  · have htake : (bytesOf out).take n = bytesOf out := List.take_of_length_le (by omega)
    have htake' : (bytesOf out ++ [UInt8.ofInt ch]).take n = bytesOf out ++ [UInt8.ofInt ch] :=
      List.take_of_length_le (by rw [List.length_append, List.length_singleton]; omega)
    have hmin : min n out.length = (bytesOf out).length := by omega
    have hmin' : min n (out ++ [ch]).length = out.length + 1 := by
      rw [List.length_append, List.length_singleton]
      omega
    rw [if_pos (by dsimp; omega), htake, hmin, Blocks.store_snoc (by omega), Option.map_some, htake', hmin', hlength]
    rfl
  · have htake : (bytesOf out ++ [UInt8.ofInt ch]).take n = (bytesOf out).take n := List.take_append_of_le_length (by omega)
    have hmin : min n (out ++ [ch]).length = min n out.length := by
      rw [List.length_append, List.length_singleton]
      omega
    rw [if_neg (by dsimp; omega), htake, hmin]

theorem foldl_sprintputch (hfits : buf.offset + n < m.size buf.block) (out : List Int) :
    out.foldl (fun s c => sprintputch c s) (some ⟨m, buf, buf + n, 0⟩) = some (afterOutput m buf n out) := by
  induction out using List.reverseRecOn with
  | nil =>
    have hstart : afterOutput m buf n [] = ⟨m, buf, buf + n, 0⟩ := by
      unfold afterOutput
      simp [bytesOf, int32]
    rw [hstart]
    rfl
  | append_singleton out c ih => rw [List.foldl_append, ih, List.foldl_cons, List.foldl_nil, sprintputch_eq hfits]

/-- The output is cut to the buffer and ended, and its length is counted in an `int`. -/
theorem vsnprintf_eq {depth : Nat} (hout : output depth fmt args = some out) (hn : 1 ≤ n) (hfits : buf.offset + n ≤ m.size buf.block) :
    vsnprintf depth m (some buf) n fmt args =
      some (m.put buf ((bytesOf out).take (n - 1) ++ [0]), int32 out.length) := by
  have hlast : ((n : Int) - 1).toNat = n - 1 := by omega
  have hlength : (bytesOf out).length = out.length := List.length_map _
  have hmin : min (n - 1) out.length = ((bytesOf out).take (n - 1)).length := by rw [List.length_take, hlength]
  have htake : ((bytesOf out).take (n - 1)).length ≤ n - 1 := List.length_take_le _ _
  unfold vsnprintf
  dsimp only
  rw [if_neg (by omega), hlast, vprintfmt_eq, hout, Option.map_some, foldl_sprintputch (by omega)]
  unfold afterOutput
  dsimp only [Option.join, Option.bind_some, id]
  rw [hmin, Blocks.store_snoc (by omega)]
  rfl

/-- The buffer holds the beginning of the full output and a NUL, nothing outside it is written, and the length of the output is
    returned as an `int`. -/
theorem vsnprintf_truncates (h : Matches fmt args) (hn : 1 ≤ n) (hfits : buf.offset + n ≤ m.size buf.block) (depth : Nat) :
    ∃ out t, output (depth + 2) fmt args = some out ∧
      vsnprintf (depth + 2) m (some buf) n fmt args = some (t, int32 out.length) ∧
      t.Holds buf ((bytesOf out).take (n - 1) ++ [0]) ∧
      ∀ b k, (b = buf.block → k < buf.offset ∨ buf.offset + n ≤ k) → t.data b k = m.data b k := by
  obtain ⟨out, hout⟩ := vprintfmt_some h snoc depth []
  have hlength : ((bytesOf out).take (n - 1) ++ [0]).length ≤ n := by
    have htake : ((bytesOf out).take (n - 1)).length ≤ n - 1 := List.length_take_le _ _
    rw [List.length_append, List.length_singleton]
    omega
  refine ⟨out, _, hout, vsnprintf_eq hout hn hfits, Blocks.holds_put (by omega), fun b k hk => ?_⟩
  rw [Blocks.data_put]
  split
  · next hin =>
    rw [List.getElem?_eq_none (by have := hk hin.1; omega), Option.getD_none]
  · rfl

theorem vsnprintf_truncates_one : ∃ out t, output 2 fiveDigits.text [.word 42] = some out ∧
    vsnprintf 2 (⟨fun _ => 4, fun _ _ => 0⟩ : Blocks Unit) (some ⟨(), 0⟩) 4 fiveDigits.text [.word 42] = some (t, int32 out.length) ∧
    t.Holds ⟨(), 0⟩ ((bytesOf out).take 3 ++ [0]) ∧
    ∀ b k, (b = () → k < 0 ∨ 0 + 4 ≤ k) → t.data b k = 0 :=
  vsnprintf_truncates (n := 4) (by decide) (by decide) (by decide) 0

/-- The format `%*d` with the greatest width -/
def widest : NumberFormat := ⟨false, true, 2147483647, 0, .decimal⟩

/-- An output of `2^31` characters is counted as `-2^31`. -/
theorem vsnprintf_wraps : ∃ out, output 2 widest.text [.word 2147483647, .word (-1)] = some out ∧ out.length = 2147483648 ∧
    ∃ t, vsnprintf 2 (⟨fun _ => 1, fun _ _ => 0⟩ : Blocks Unit) (some ⟨(), 0⟩) 1 widest.text [.word 2147483647, .word (-1)] =
      some (t, -2147483648) := by
  have hout : output 2 widest.text [.word 2147483647, .word (-1)] = some _ :=
    output_negative widest (by decide) (by decide) (a := .word (-1)) rfl rfl (by decide)
  have hone : (numeral 10 (Arg.word (-1)).toInt.natAbs).length = 1 := by decide
  have hlength : ([45] ++ List.replicate (widest.width - (numeral 10 (Arg.word (-1)).toInt.natAbs).length) widest.padChar ++
      numeralChars 10 (Arg.word (-1)).toInt.natAbs).length = 2147483648 := by
    rw [List.length_append, List.length_append, List.length_replicate, length_numeralChars, hone]
    rfl
  have hprint : vsnprintf 2 (⟨fun _ => 1, fun _ _ => 0⟩ : Blocks Unit) (some ⟨(), 0⟩) (1 : Nat) widest.text
      [.word 2147483647, .word (-1)] = some (_, int32 _) := vsnprintf_eq hout (by decide) (by decide)
  rw [hlength] at hprint
  exact ⟨_, hout, hlength, _, hprint⟩

end Fos.Print
