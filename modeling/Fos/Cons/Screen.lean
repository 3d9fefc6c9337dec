import Fos.Lib.Reach
import Fos.Types
import Mathlib.Data.BitVec

/-! The screen of the console (`cga_putc` in `kern/cons/console.c`). The ports that move the visible cursor are left out. -/

namespace Fos
open Lib

namespace Cons

/-- `CRT_COLS` -/
def crtCols : Nat := 80

/-- `CRT_SIZE` -/
def crtSize : Nat := 25 * crtCols

/-- `KEY_LF` -/
def keyLf : BitVec 32 := 0xE4

/-- `KEY_RT` -/
def keyRt : BitVec 32 := 0xE5

structure Screen where
  crtBuf : Nat → BitVec 16
  crtPos : Nat
  textLength : Int32
  currentTextColor : BitVec 32

namespace Screen

/-- `crt_buf[i] = v`; `none`, here and below, if the index is not one of the screen. -/
def write (s : Screen) (i : Nat) (v : BitVec 16) : Option Screen :=
  if i < crtSize then some { s with crtBuf := Function.update s.crtBuf i v } else none

/-- `memcpy(crt_buf + dst, crt_buf + src, n * sizeof(uint16))`, in ascending order -/
def copyCells (s : Screen) (dst src : Nat) : Nat → Option Screen
  | 0 => some s
  | n + 1 => if src < crtSize then (s.write dst (s.crtBuf src)).bind fun s => s.copyCells (dst + 1) (src + 1) n else none

/-- `n` turns of the loop of `cga_putc` over the last line -/
def blankCells (s : Screen) (i : Nat) : Nat → Option Screen
  | 0 => some s
  | n + 1 => (s.write i (0x0700 ||| 32)).bind fun s => s.blankCells (i + 1) n

/-- What `cga_putc` does when the position is behind the screen -/
def scroll (s : Screen) : Option Screen :=
  (s.copyCells 0 crtCols (crtSize - crtCols)).bind fun s =>
    (s.blankCells (crtSize - crtCols) crtCols).map fun s => { s with crtPos := s.crtPos - crtCols }

/-- The character `'\r'` -/
def carriageReturn (s : Screen) : Screen := { s with crtPos := s.crtPos - s.crtPos % crtCols }

/-- The key `KEY_LF` -/
def cursorLeft (s : Screen) : Screen := if s.crtPos > 0 then { s with crtPos := s.crtPos - 1 } else s

/-- The key `KEY_RT` -/
def cursorRight (s : Screen) : Screen := if s.crtPos < crtSize then { s with crtPos := u16 (s.crtPos + 1) } else s

/-- The default of the switch of `cga_putc` -/
def putChar (s : Screen) (c : BitVec 32) : Option Screen :=
  if c ≠ keyLf ∧ c ≠ keyRt then
    (s.write s.crtPos (c.setWidth 16)).map fun s =>
      let s := { s with crtPos := u16 (s.crtPos + 1) }
      if Int32.ofNat s.crtPos > 1920 + s.textLength then { s with textLength := s.textLength + 1 } else s
  else some s

/-- The switch of `cga_putc`, where `consPutc` stands for the function -/
def switch (consPutc : Screen → BitVec 32 → Option Screen) (s : Screen) (c : BitVec 32) : Option Screen :=
  let key := c &&& 0xff
  if key = 8 then
    if s.crtPos > 0 then { s with crtPos := s.crtPos - 1 }.write (s.crtPos - 1) ((c &&& ~~~0xff ||| 32).setWidth 16)
    else some s
  else if key = 10 then some ({ s with crtPos := u16 (s.crtPos + crtCols), textLength := 0 } : Screen).carriageReturn
  else if key = 13 then some s.carriageReturn
  else if key = 9 then exec consPutc s (List.replicate 5 32)
  else if key = keyLf then some s.cursorLeft
  else if key = keyRt then some s.cursorRight
  else s.putChar c

/-- A character without an attribute takes the colour of the text. -/
def withAttribute (s : Screen) (c : BitVec 32) : BitVec 32 :=
  if c &&& ~~~0xff = 0 then c ||| (if s.currentTextColor = 0 then 0x700 else s.currentTextColor) else c

/-- `cga_putc`; the first argument bounds the depth of its calls. What `cons_putc` sends to the parallel port is left out, so
    that it is this function too. -/
def cgaPutc : Nat → Screen → BitVec 32 → Option Screen
  | 0, _, _ => none
  | depth + 1, s, c =>
    (switch (cgaPutc depth) s (s.withAttribute c)).bind fun s => if s.crtPos ≥ crtSize then s.scroll else some s

end Screen

variable {s t : Screen} {c : BitVec 32} {i n depth : Nat}

namespace Screen

theorem write_some {v : BitVec 16} (hi : i < crtSize) : ∃ t, s.write i v = some t ∧ t.crtPos = s.crtPos :=
  ⟨_, if_pos hi, rfl⟩

theorem copyCells_some (s : Screen) (dst src n : Nat) (hdst : dst + n ≤ crtSize) (hsrc : src + n ≤ crtSize) :
    ∃ t, s.copyCells dst src n = some t ∧ t.crtPos = s.crtPos := by
  induction n generalizing s dst src with
  | zero => exact ⟨s, rfl, rfl⟩
  | succ n ih =>
    obtain ⟨u, hu, hupos⟩ := write_some (s := s) (v := s.crtBuf src) (i := dst) (by omega)
    obtain ⟨t, ht, htpos⟩ := ih u (dst + 1) (src + 1) (by omega) (by omega)
    refine ⟨t, ?_, htpos.trans hupos⟩
    rw [copyCells, if_pos (by omega), hu]
    exact ht

theorem blankCells_some (hi : i + n ≤ crtSize) : ∃ t, s.blankCells i n = some t ∧ t.crtPos = s.crtPos := by
  induction n generalizing s i with
  | zero => exact ⟨s, rfl, rfl⟩
  | succ n ih =>
    obtain ⟨u, hu, hupos⟩ := write_some (s := s) (v := 0x0700 ||| 32) (i := i) (by omega)
    obtain ⟨t, ht, htpos⟩ := ih (s := u) (i := i + 1) (by omega)
    refine ⟨t, ?_, htpos.trans hupos⟩
    rw [blankCells, hu]
    exact ht

theorem scroll_some : ∃ t, s.scroll = some t ∧ t.crtPos = s.crtPos - crtCols := by
  obtain ⟨u, hu, hupos⟩ := copyCells_some s 0 crtCols (crtSize - crtCols) (by decide) (by decide)
  obtain ⟨t, ht, htpos⟩ := blankCells_some (s := u) (i := crtSize - crtCols) (n := crtCols) (by decide)
  refine ⟨{ t with crtPos := t.crtPos - crtCols }, ?_, ?_⟩
  · rw [scroll, hu, Option.bind_some, ht, Option.map_some]
  · rw [htpos, hupos]

theorem putChar_some (h : s.crtPos < crtSize) : ∃ t, s.putChar c = some t ∧ t.crtPos ≤ s.crtPos + 1 := by
  unfold putChar
  split
  · obtain ⟨u, hu, hupos⟩ := write_some (s := s) (v := c.setWidth 16) h
    refine ⟨_, by rw [hu, Option.map_some], ?_⟩
    have hle : u16 (u.crtPos + 1) ≤ s.crtPos + 1 := hupos ▸ Nat.mod_le _ _
    dsimp only
    split <;> exact hle
  · exact ⟨s, rfl, Nat.le_succ _⟩

theorem carriageReturn_le (s : Screen) : s.carriageReturn.crtPos ≤ s.crtPos := Nat.sub_le _ _

theorem cursorLeft_le (s : Screen) : s.cursorLeft.crtPos ≤ s.crtPos := by
  unfold cursorLeft
  split
  · exact Nat.sub_le _ _
  · exact Nat.le_refl _

theorem cursorRight_le (s : Screen) : s.cursorRight.crtPos ≤ s.crtPos + 1 := by
  unfold cursorRight
  split
  · exact Nat.mod_le _ _
  · exact Nat.le_succ _

/-- The switch moves the position at most to the first cell behind the screen; one line less is enough to bring it back. -/
theorem switch_some {consPutc : Screen → BitVec 32 → Option Screen}
    (htab : c &&& 0xff = 9 → ∃ t, exec consPutc s (List.replicate 5 32) = some t ∧ t.crtPos < crtSize) (h : s.crtPos < crtSize) :
    ∃ t, switch consPutc s c = some t ∧ t.crtPos < crtSize + crtCols := by
  have hsize : crtSize = 2000 := rfl
  have hcols : crtCols = 80 := rfl
  unfold switch
  dsimp only
  split
  · split
    · exact ⟨_, if_pos (by omega), by dsimp only; omega⟩
    · exact ⟨s, rfl, by omega⟩
  split
  · refine ⟨_, rfl, Nat.lt_of_le_of_lt (carriageReturn_le _) ?_⟩
    exact Nat.lt_of_le_of_lt (Nat.mod_le _ _) (by omega)
  split
  · exact ⟨_, rfl, Nat.lt_of_le_of_lt (carriageReturn_le _) (by omega)⟩
  split
  · next htab' =>
    obtain ⟨t, ht, hpos⟩ := htab htab'
    exact ⟨t, ht, by omega⟩
  split
  · exact ⟨_, rfl, Nat.lt_of_le_of_lt (cursorLeft_le s) (by omega)⟩
  split
  · exact ⟨_, rfl, Nat.lt_of_le_of_lt (cursorRight_le s) (by omega)⟩
  · obtain ⟨t, ht, hpos⟩ := putChar_some (c := c) h
    exact ⟨t, ht, by omega⟩

theorem cgaPutc_of_switch {u : Screen} (hu : switch (cgaPutc depth) s (s.withAttribute c) = some u)
    (hpos : u.crtPos < crtSize + crtCols) : ∃ t, cgaPutc (depth + 1) s c = some t ∧ t.crtPos < crtSize := by
  unfold cgaPutc
  rw [hu, Option.bind_some]
  split
  · next hbehind =>
    obtain ⟨t, ht, htpos⟩ := scroll_some (s := u)
    refine ⟨t, ht, ?_⟩
    rw [htpos]
    have hcols : crtCols ≤ crtSize := by decide
    exact Nat.sub_lt_right_of_lt_add (Nat.le_trans hcols hbehind) hpos
  · exact ⟨u, rfl, Nat.lt_of_not_le (by assumption)⟩

/-- Whatever the colour is, a space is no tab. -/
theorem space_ne_tab (s : Screen) : s.withAttribute 32 &&& 0xff ≠ 9 := by
  have hattr : s.withAttribute 32 = 32 ||| (if s.currentTextColor = 0 then 0x700 else s.currentTextColor) := if_pos (by decide)
  intro heq
  have hbit := congrArg (BitVec.getLsbD · 5) heq
  rw [hattr] at hbit
  simp at hbit

theorem space_some (h : s.crtPos < crtSize) : ∃ t, cgaPutc (depth + 1) s 32 = some t ∧ t.crtPos < crtSize := by
  have hswitch : ∃ u, switch (cgaPutc depth) s (s.withAttribute 32) = some u ∧ u.crtPos < crtSize + crtCols :=
    switch_some (fun htab => absurd htab (space_ne_tab s)) h
  obtain ⟨u, hu, hpos⟩ := hswitch
  exact cgaPutc_of_switch hu hpos

theorem cgaPutc_some (h : s.crtPos < crtSize) (c : BitVec 32) :
    ∃ t, cgaPutc (depth + 2) s c = some t ∧ t.crtPos < crtSize := by
  have htab : ∃ t, exec (cgaPutc (depth + 1)) s (List.replicate 5 32) = some t ∧ t.crtPos < crtSize := by
    refine exec_total h fun s e hs he => ?_
    rw [List.eq_of_mem_replicate he]
    exact space_some hs
  obtain ⟨u, hu, hpos⟩ := switch_some (c := s.withAttribute c) (fun _ => htab) h
  exact cgaPutc_of_switch hu hpos

/-- Whatever characters are put out, every write goes to a cell of the screen, and the position stays on it. -/
theorem crtPos_lt (h : s.crtPos < crtSize) (depth : Nat) (codes : List (BitVec 32)) :
    ∃ t, exec (cgaPutc (depth + 2)) s codes = some t ∧ t.crtPos < crtSize :=
  exec_total h fun _ c hs _ => cgaPutc_some hs c

theorem crtPos_lt_tabs : ∃ t, exec (cgaPutc 2) ⟨fun _ => 0, 1999, 79, 0⟩ [9, 10, 8, keyRt] = some t ∧ t.crtPos < crtSize :=
  crtPos_lt (by decide) 0 [9, 10, 8, keyRt]

end Screen

end Cons

end Fos
