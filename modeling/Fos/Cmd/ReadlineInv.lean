import Fos.Cmd.Readline

/-! The bounds of the line editor. A key is read without an access outside the line and the history exactly when the cursor, the
    end of the line, the place in the history or the completions are in the range that the key takes for granted. -/

namespace Fos
open Lib Str

namespace Cmd

/-! ### What holds between two turns -/

/-- A history has a zero in every row, so that each row is a text. -/
structure Rows (m : Blocks Block) : Prop where
  size : m.size = Block.size
  terminated : ∀ k ≤ historyMax, ∃ j < bufLen, m.data (.commandHistory k) j = 0

structure Shared.Holds (g : Shared) : Prop where
  rows : Rows g.memory
  last : -1 ≤ g.lastCommandIdx ∧ g.lastCommandIdx ≤ historyMax
  first : (g.prefixList 0).length < bufLen

/-- The cursor has no upper bound: the right arrow follows an end of the line that typing moves without one. -/
structure Line.Holds (g : Shared) (line : Line) : Prop where
  cursor : 0 ≤ line.i
  command : 0 ≤ line.commandidx ∧ line.commandidx ≤ g.lastCommandIdx + 1
  terminated : g.memory.data .buf (bufLen - 1) = 0
  row : line.prefixListIdx < prefixRows ∧ (g.prefixList line.prefixListIdx).length < bufLen

structure Turn (x : Shared × Line) : Prop where
  shared : x.1.Holds
  line : x.2.Holds x.1

structure State.Holds (s : State) : Prop where
  shared : s.shared.Holds
  line : ∀ line, s.line = some line → line.Holds s.shared

theorem Turn.state {x : Shared × Line} (h : Turn x) : State.Holds ⟨x.1, some x.2⟩ :=
  ⟨h.shared, fun _ hline => Option.some.inj hline ▸ h.line⟩

/-! ### The condition -/

/-- The texts fit in `PrefixList`, and the first one in the line. -/
structure FoundFits (found : List (List UInt8)) : Prop where
  count : found.length ≤ prefixRows
  length : ∀ l ∈ found, l.length ≤ bufLen
  first : ∀ l, found.head? = some l → l.length < bufLen

/-- The Tab key: what is found fits; when it is pressed again, the next row is one of `PrefixList` and fits. -/
def Tables.TabFits (tables : Tables) (g : Shared) (line : Line) : Prop :=
  if line.lastC ≠ 9 then
    ∀ l r, text g.memory ⟨.buf, 0⟩ = some l → line.request l = some r → FoundFits (tables.found r)
  else 0 < line.prefixListSize → line.nextRow < prefixRows ∧ (g.prefixList line.nextRow).length < bufLen

/-- What each key takes for granted. -/
structure Tables.KeyFits (tables : Tables) (g : Shared) (line : Line) (c : Int) : Prop where
  downArrow : c = 227 → line.commandidx ≤ historyMax
  tab : c = 9 → tables.TabFits g line
  delete : c = 0xE9 → 0 < line.i → line.i < bufLen - 1 ∧ line.lastIndex < bufLen - 1
  backspace : c = 8 → 0 < line.i → line.i < bufLen
  enter : c = 10 ∨ c = 13 → 0 ≤ g.lastCommandIdx ∧ line.i < bufLen ∧ line.lastIndex < bufLen

/-- A key that comes within a call has what it takes for granted. -/
def Tables.Fits (tables : Tables) (s : State) : Event → Prop
  | .call .. => True
  | .key c => ∀ line, s.line = some line → tables.KeyFits s.shared line c

variable {tables : Tables} {m t : Blocks Block} {g : Shared} {line : Line} {s s₀ : State} {l : List UInt8}
  {c z k : Int} {i n : Nat} {P : Prop}

/-! ### The arrays -/

theorem Rows.size_buf (h : Rows m) : m.size .buf = bufLen := by rw [h.size]; rfl

theorem Rows.size_history (h : Rows m) (hi : i ≤ historyMax) : m.size (.commandHistory i) = bufLen := by
  rw [h.size]
  exact if_pos hi

theorem Rows.put_buf (h : Rows m) (i : Nat) (l : List UInt8) : Rows (m.put ⟨.buf, i⟩ l) where
  size := h.size
  terminated k hk := by
    have hsame : (m.put ⟨.buf, i⟩ l).data (.commandHistory k) = m.data (.commandHistory k) :=
      Blocks.data_put_other (p := ⟨Block.buf, i⟩) (fun heq => nomatch heq)
    rw [hsame]
    exact h.terminated k hk

theorem Rows.isString (h : Rows m) (hi : i ≤ historyMax) :
    ∃ l, l.length < bufLen ∧ m.IsString ⟨.commandHistory i, 0⟩ l := by
  obtain ⟨j, hj, hzero⟩ := h.terminated i hi
  have hsize := h.size_history hi
  obtain ⟨l, hlength, hl⟩ := Blocks.exists_isString (p := ⟨.commandHistory i, 0⟩) (m := m) j
    (by dsimp; omega) (by rw [Nat.zero_add]; exact hzero)
  exact ⟨l, by omega, hl⟩

/-- Nothing is written to the last character of the line. -/
theorem last_put (h : m.data .buf (bufLen - 1) = 0) (hl : i + l.length ≤ bufLen - 1) :
    (m.put ⟨.buf, i⟩ l).data .buf (bufLen - 1) = 0 := by
  rw [Blocks.data_put, List.getElem?_eq_none (by dsimp only; omega), Option.getD_none, h, ite_self]

theorem last_zeros (m : Blocks Block) : (m.put ⟨.buf, 0⟩ (List.replicate bufLen 0)).data .buf (bufLen - 1) = 0 := by
  have hlt : bufLen - 1 < (List.replicate bufLen (0 : UInt8)).length := by rw [List.length_replicate]; decide
  have hbyte := Blocks.data_put_at (m := m) (p := ⟨.buf, 0⟩) hlt
  rw [List.getElem_replicate, Nat.zero_add] at hbyte
  exact hbyte

theorem isString_buf (h : Rows m) (hlast : m.data .buf (bufLen - 1) = 0) :
    ∃ l, l.length < bufLen ∧ m.IsString ⟨.buf, 0⟩ l := by
  have hsize := h.size_buf
  have hpos : 0 < bufLen := by decide
  obtain ⟨l, hlength, hl⟩ := Blocks.exists_isString (p := ⟨.buf, 0⟩) (m := m) (bufLen - 1)
    (by dsimp; omega) (by rw [Nat.zero_add]; exact hlast)
  exact ⟨l, by omega, hl⟩

theorem loadBuf_eq (h : Rows m) (hk : 0 ≤ k) (hlt : k < bufLen) : loadBuf m k = some (m.data .buf k.toNat) := by
  unfold loadBuf bufPtr
  rw [if_pos hk, Option.bind_some]
  exact if_pos (by dsimp only; rw [h.size_buf]; omega)

theorem loadBuf_none (h : Rows m) (hle : bufLen ≤ k) : loadBuf m k = none := by
  unfold loadBuf bufPtr
  rw [if_pos (by omega), Option.bind_some]
  exact if_neg (by dsimp only; rw [h.size_buf]; omega)

theorem storeBuf_eq {d : UInt8} (h : Rows m) (hk : 0 ≤ k) (hlt : k < bufLen) :
    storeBuf m k d = some (m.put ⟨.buf, k.toNat⟩ [d]) := by
  unfold storeBuf bufPtr
  rw [if_pos hk, Option.bind_some]
  exact Blocks.store_eq (by dsimp only; rw [h.size_buf]; omega)

theorem storeBuf_none {d : UInt8} (h : Rows m) (hle : bufLen ≤ k) : storeBuf m k d = none := by
  unfold storeBuf bufPtr
  rw [if_pos (by omega), Option.bind_some]
  exact if_neg (by dsimp only; rw [h.size_buf]; omega)

theorem writeBuf_eq (h : Rows m) (hl : l.length ≤ bufLen) : writeBuf m l = some (m.put ⟨.buf, 0⟩ l) :=
  if_pos (by rw [h.size_buf]; exact hl)

/-! ### History -/

theorem rewrite_some (hg : g.Holds) (hcommand : 0 ≤ line.commandidx ∧ line.commandidx ≤ g.lastCommandIdx + 1)
    (hrow : line.prefixListIdx < prefixRows ∧ (g.prefixList line.prefixListIdx).length < bufLen) (hl : l.length < bufLen) :
    ∃ x, g.rewrite line l = some x ∧ Turn x := by
  have hzeros := hg.rows.put_buf 0 (List.replicate bufLen 0)
  unfold Shared.rewrite
  rw [writeBuf_eq hg.rows (by rw [List.length_replicate]), Option.bind_some, writeBuf_eq hzeros (Nat.le_of_lt hl), Option.map_some]
  refine ⟨_, rfl, ⟨hzeros.put_buf 0 l, hg.last, hg.first⟩, Int.natCast_nonneg _, hcommand, ?_, hrow⟩
  exact last_put (last_zeros g.memory) (by omega)

/-- A row of the history in place of the line. -/
theorem clearAndWriteCommand_some (hg : g.Holds) (hcommand : 0 ≤ line.commandidx ∧ line.commandidx ≤ g.lastCommandIdx + 1)
    (hrow : line.prefixListIdx < prefixRows ∧ (g.prefixList line.prefixListIdx).length < bufLen)
    (hidx : line.commandidx ≤ historyMax) : ∃ x, g.clearAndWriteCommand line = some x ∧ Turn x := by
  obtain ⟨l, hlength, hl⟩ := hg.rows.isString (i := line.commandidx.toNat) (by omega)
  unfold Shared.clearAndWriteCommand historyPtr
  rw [if_pos hcommand.1, Option.bind_some, text_eq hl, Option.bind_some]
  exact rewrite_some hg hcommand hrow (by rw [Blocks.length_bytes]; exact hlength)

theorem upArrow_some (h : Turn (g, line)) : ∃ x, g.upArrow line = some x ∧ Turn x := by
  have hlast := h.shared.last
  have hcommand := h.line.command
  dsimp only at hlast hcommand
  refine clearAndWriteCommand_some h.shared ?_ h.line.row ?_
  · dsimp only
    split <;> omega
  · dsimp only
    split <;> omega

/-- There is no row behind the last one. -/
theorem clearAndWriteCommand_none (h : Rows g.memory) (hidx : line.commandidx > historyMax) :
    g.clearAndWriteCommand line = none := by
  have hsize : g.memory.size (.commandHistory line.commandidx.toNat) = 0 := by
    rw [h.size]
    exact if_neg (by omega)
  unfold Shared.clearAndWriteCommand historyPtr text strlen
  rw [if_pos (by omega), Option.bind_some]
  dsimp only
  rw [hsize]
  rfl

theorem downArrow_exactly (h : Turn (g, line)) : Exactly (line.commandidx ≤ historyMax) Turn (g.downArrow line) := by
  have hmax : historyMax = 19 := rfl
  have hlast := h.shared.last
  have hcommand := h.line.command
  dsimp only at hlast hcommand
  unfold Shared.downArrow
  dsimp only
  split
  · refine ⟨fun hidx => clearAndWriteCommand_some h.shared ?_ h.line.row ?_, fun hidx =>
      clearAndWriteCommand_none h.shared.rows ?_⟩
    · dsimp only
      split <;> omega
    · dsimp only
      split <;> omega
    · dsimp only
      split <;> omega
  · refine .total ⟨_, rfl, h.shared, h.line.cursor, ?_, h.line.terminated, h.line.row⟩ (by omega)
    dsimp only
    split <;> omega

/-- A row of the history takes over a terminated block. -/
theorem memcpy_some {b : Block} (h : Rows m) (hi : i ≤ historyMax) (hb : m.size b = bufLen)
    (hzero : ∃ j < bufLen, m.data b j = 0) :
    ∃ t, memcpy m ⟨.commandHistory i, 0⟩ ⟨b, 0⟩ bufLen = some t ∧ Rows t ∧ t.data .buf = m.data .buf := by
  obtain ⟨j, hj, hzero⟩ := hzero
  have hfits : 0 + bufLen ≤ m.size b ∧ 0 + bufLen ≤ m.size (.commandHistory i) := by
    rw [hb, h.size_history hi, Nat.zero_add]
    exact ⟨Nat.le_refl _, Nat.le_refl _⟩
  refine ⟨_, if_pos hfits, ⟨h.size, fun k hk => ?_⟩, ?_⟩
  · by_cases hki : k = i
    · subst hki
      refine ⟨j, hj, ?_⟩
      have hlt : j < (m.bytes ⟨b, 0⟩ bufLen).length := by rw [Blocks.length_bytes]; exact hj
      have hbyte := Blocks.data_put_at (m := m) (p := ⟨.commandHistory k, 0⟩) hlt
      rw [Blocks.getElem_bytes, Nat.zero_add] at hbyte
      exact hbyte.trans hzero
    · have hne : Block.commandHistory k ≠ .commandHistory i := fun heq => hki (Block.commandHistory.inj heq)
      have hsame := Blocks.data_put_other (m := m) (p := ⟨.commandHistory i, 0⟩) (l := m.bytes ⟨b, 0⟩ bufLen) hne
      rw [hsame]
      exact h.terminated k hk
  · exact Blocks.data_put_other (p := ⟨Block.commandHistory i, 0⟩) (fun heq => nomatch heq)

theorem shiftHistory_some (h : Rows m) (hi : i + n ≤ historyMax) :
    ∃ t, shiftHistory m i n = some t ∧ Rows t ∧ t.data .buf = m.data .buf := by
  induction n generalizing m i with
  | zero => exact ⟨m, rfl, h, rfl⟩
  | succ n ih =>
    obtain ⟨u, hu, hrows, hbuf⟩ := memcpy_some h (i := i) (b := .commandHistory (i + 1)) (by omega)
      (h.size_history (by omega)) (h.terminated (i + 1) (by omega))
    obtain ⟨t, ht, htrows, htbuf⟩ := ih hrows (i := i + 1) (by omega)
    refine ⟨t, ?_, htrows, htbuf.trans hbuf⟩
    rw [shiftHistory, hu]
    exact ht

/-- The line, behind its end a zero, goes to the history. -/
theorem enter_exactly (h : Turn (g, line)) (hend : line.i ≤ line.lastIndex) :
    Exactly (0 ≤ g.lastCommandIdx ∧ line.lastIndex < bufLen) Shared.Holds (g.enter line) := by
  have hcursor := h.line.cursor
  have hlast := h.shared.last
  dsimp only at hcursor hlast
  unfold Shared.enter
  by_cases hlt : line.lastIndex < bufLen
  · have hrows := h.shared.rows.put_buf line.lastIndex.toNat [0]
    have hbuf : ∃ j < bufLen, (g.memory.put ⟨.buf, line.lastIndex.toNat⟩ [0]).data .buf j = 0 := by
      refine ⟨line.lastIndex.toNat, by omega, ?_⟩
      exact Blocks.data_put_at (m := g.memory) (p := ⟨.buf, line.lastIndex.toNat⟩) (l := [0]) (k := 0) Nat.one_pos
    rw [storeBuf_eq h.shared.rows (by omega) hlt, Option.bind_some]
    split
    · next hfull =>
      -- A full history loses its first row.
      obtain ⟨t, ht, htrows, htbuf⟩ := shiftHistory_some hrows (i := 0) (n := historyMax) (by omega)
      obtain ⟨u, hu, hurows, -⟩ := memcpy_some htrows (i := historyMax) (b := .buf) (Nat.le_refl _) htrows.size_buf
        (by rw [htbuf]; exact hbuf)
      rw [ht, Option.bind_some, hu, Option.map_some]
      exact .total ⟨_, rfl, hurows, h.shared.last, h.shared.first⟩ ⟨by omega, hlt⟩
    · by_cases hsome : 0 ≤ g.lastCommandIdx
      · obtain ⟨l, hlength, hl⟩ := hrows.isString (i := g.lastCommandIdx.toNat) (by omega)
        obtain ⟨z, hz⟩ := strcmp_some hl (q := ⟨.buf, 0⟩) (by dsimp only; rw [hrows.size_buf]; omega)
        refine .total ?_ ⟨hsome, hlt⟩
        unfold historyPtr
        rw [if_pos hsome, Option.bind_some, hz, Option.bind_some]
        split
        · obtain ⟨t, ht, htrows, -⟩ := memcpy_some hrows (i := (g.lastCommandIdx + 1).toNat) (b := .buf) (by omega)
            hrows.size_buf hbuf
          rw [if_pos (by omega), Option.bind_some, ht, Option.map_some]
          refine ⟨_, rfl, htrows, ⟨?_, ?_⟩, h.shared.first⟩
          · dsimp only
            omega
          · dsimp only
            omega
        · exact ⟨_, rfl, hrows, h.shared.last, h.shared.first⟩
      · refine ⟨fun hP => absurd hP.1 hsome, fun _ => ?_⟩
        unfold historyPtr
        rw [if_neg hsome]
        rfl
  · refine ⟨fun hP => absurd hP.2 hlt, fun _ => ?_⟩
    rw [storeBuf_none h.shared.rows (by omega)]
    rfl

/-! ### The line -/

/-- The line changes below its last character, and the cursor moves. -/
theorem turn_put (h : Turn (g, line)) {line' : Line} (hi : i + l.length ≤ bufLen - 1) (hcursor : 0 ≤ line'.i)
    (hcommand : line'.commandidx = line.commandidx) (hrow : line'.prefixListIdx = line.prefixListIdx) :
    Turn ({ g with memory := g.memory.put ⟨.buf, i⟩ l }, line') where
  shared := ⟨h.shared.rows.put_buf i l, h.shared.last, h.shared.first⟩
  line := ⟨hcursor, hcommand ▸ h.line.command, last_put h.line.terminated hi, hrow ▸ h.line.row⟩

theorem turn_cursor (h : Turn (g, line)) {line' : Line} (hcursor : 0 ≤ line'.i)
    (hcommand : line'.commandidx = line.commandidx) (hrow : line'.prefixListIdx = line.prefixListIdx) : Turn (g, line') where
  shared := h.shared
  line := ⟨hcursor, hcommand ▸ h.line.command, h.line.terminated, hrow ▸ h.line.row⟩

theorem leftArrow_turn (h : Turn (g, line)) : Turn (g, line.leftArrow) := by
  unfold Line.leftArrow
  split
  · exact turn_cursor h (by dsimp only; omega) rfl rfl
  · exact h

theorem rightArrow_turn (h : Turn (g, line)) : Turn (g, line.rightArrow) := by
  have hcursor := h.line.cursor
  dsimp only at hcursor
  unfold Line.rightArrow
  split
  · exact turn_cursor h (by dsimp only; omega) rfl rfl
  · exact h

theorem type_some (h : Turn (g, line)) (hi : line.i < bufLen - 1) (c : Int) :
    ∃ m, let x := ({ g with memory := m }, { line with i := line.i + 1, lastIndex := int32 (line.lastIndex + 1) })
      g.type line c = some x ∧ Turn x := by
  have hcursor := h.line.cursor
  dsimp only at hcursor
  unfold Shared.type
  rw [storeBuf_eq h.shared.rows hcursor (by omega), Option.map_some]
  refine ⟨_, rfl, turn_put h ?_ ?_ rfl rfl⟩
  · rw [List.length_singleton]
    omega
  · dsimp only
    omega

theorem backspace_some (h : Turn (g, line)) (hi : 0 < line.i) (hlt : line.i < bufLen) :
    ∃ m, let x := ({ g with memory := m }, { line with i := line.i - 1 })
      g.backspace line = some x ∧ Turn x := by
  unfold Shared.backspace
  rw [loadBuf_eq h.shared.rows (by omega) hlt, Option.bind_some, storeBuf_eq h.shared.rows (by omega) (by omega), Option.map_some]
  refine ⟨_, rfl, turn_put h ?_ ?_ rfl rfl⟩
  · rw [List.length_singleton]
    omega
  · dsimp only
    omega

theorem backspace_exactly (h : Turn (g, line)) (hi : 0 < line.i) : Exactly (line.i < bufLen) Turn (g.backspace line) := by
  refine ⟨fun hlt => ?_, fun hge => ?_⟩
  · obtain ⟨m, hm, hturn⟩ := backspace_some h hi hlt
    exact ⟨_, hm, hturn⟩
  · unfold Shared.backspace
    rw [loadBuf_none h.shared.rows (by omega)]
    rfl

/-- The loop of the Delete key reads one character behind the end of the line. -/
theorem shiftBuf_some (h : Rows m) (hlast : m.data .buf (bufLen - 1) = 0) (hk : 0 ≤ k) (hn : k + n ≤ bufLen - 1) :
    ∃ t, shiftBuf m k n = some t ∧ Rows t ∧ t.data .buf (bufLen - 1) = 0 := by
  induction n generalizing m k with
  | zero => exact ⟨m, rfl, h, hlast⟩
  | succ n ih =>
    rw [shiftBuf, loadBuf_eq h (by omega) (by omega), Option.bind_some, storeBuf_eq h hk (by omega), Option.bind_some]
    refine ih (h.put_buf _ _) (last_put hlast ?_) (by omega) (by omega)
    rw [List.length_singleton]
    omega

theorem shiftBuf_none (h : Rows m) (hk : 0 ≤ k) (hn : 0 < n) (hend : bufLen ≤ k + n) : shiftBuf m k n = none := by
  induction n generalizing m k with
  | zero => exact absurd hn (Nat.lt_irrefl 0)
  | succ n ih =>
    rw [shiftBuf]
    by_cases hlt : k + 1 < bufLen
    · rw [loadBuf_eq h (by omega) hlt, Option.bind_some, storeBuf_eq h hk (by omega), Option.bind_some]
      exact ih (h.put_buf _ _) (by omega) (by omega) (by omega)
    · rw [loadBuf_none h (by omega)]
      rfl

theorem delete_exactly (h : Turn (g, line)) (hend : line.i ≤ line.lastIndex) :
    Exactly (line.lastIndex < bufLen - 1) Turn (g.delete line) := by
  have hcursor := h.line.cursor
  dsimp only at hcursor
  unfold Shared.delete
  by_cases hlt : line.lastIndex < bufLen - 1
  · obtain ⟨t, ht, hrows, hlast⟩ := shiftBuf_some h.shared.rows h.line.terminated hcursor
      (n := (line.lastIndex + 1 - line.i).toNat) (by omega)
    rw [ht, Option.map_some]
    exact .total ⟨_, rfl, ⟨hrows, h.shared.last, h.shared.first⟩, hcursor, h.line.command, hlast, h.line.row⟩ hlt
  · refine ⟨fun hP => absurd hP hlt, fun _ => ?_⟩
    rw [shiftBuf_none h.shared.rows hcursor (by omega) (by omega)]
    rfl

/-! ### Completion -/

theorem prefixRow_eq {rows : Nat → List UInt8} (h : i < prefixRows ∧ (rows i).length < bufLen) :
    prefixRow rows i = some (rows i) := if_pos h

theorem nextTab_exactly (h : Turn (g, line)) :
    Exactly (0 < line.prefixListSize → line.nextRow < prefixRows ∧ (g.prefixList line.nextRow).length < bufLen) Turn
      (g.nextTab line) := by
  unfold Shared.nextTab
  split
  · next hsize =>
    rw [prefixRow_eq h.line.row, Option.bind_some]
    refine ⟨fun hnext => ?_, fun hnext => ?_⟩
    · rw [prefixRow_eq (hnext hsize), Option.bind_some]
      exact rewrite_some h.shared h.line.command (hnext hsize) (hnext hsize).2
    · have hnone : prefixRow g.prefixList line.nextRow = none := if_neg fun hrow => hnext fun _ => hrow
      rw [hnone]
      rfl
  · next hsize => exact .total ⟨_, rfl, h⟩ fun hpos => absurd hpos hsize

/-- What is kept of the line is not longer than the line. -/
theorem request_kept {r : Request} (hr : line.request l = some r) {kept : List UInt8} (hkept : r.kept = some kept) :
    kept.length ≤ l.length := by
  unfold Line.request at hr
  dsimp only at hr
  split at hr
  · exact nomatch hr
  split at hr
  · split at hr
    · exact nomatch hr
    · cases hr
      cases hkept
      rw [List.length_take]
      exact Nat.min_le_right _ _
  · cases hr
    exact nomatch hkept

theorem cutBuf_some {kept : Option (List UInt8)} (h : Rows m) (hlast : m.data .buf (bufLen - 1) = 0)
    (hkept : ∀ l, kept = some l → l.length < bufLen) :
    ∃ t, cutBuf m kept = some t ∧ Rows t ∧ t.data .buf (bufLen - 1) = 0 := by
  cases kept with
  | none => exact ⟨m, rfl, h, hlast⟩
  | some l =>
    have hlength := hkept l rfl
    refine ⟨_, writeBuf_eq h ?_, h.put_buf 0 _, ?_⟩
    · rw [List.length_append, List.length_singleton]
      exact hlength
    · -- The terminating zero may be the last character.
      have hcut : (m.put ⟨.buf, 0⟩ l).data .buf (bufLen - 1) = 0 := last_put hlast (by omega)
      have happend : m.put ⟨.buf, 0⟩ (l ++ [0]) = (m.put ⟨.buf, 0⟩ l).put ⟨.buf, 0 + l.length⟩ [0] :=
        Blocks.put_append m ⟨.buf, 0⟩ l [0]
      rw [happend]
      by_cases hfull : l.length = bufLen - 1
      · have hbyte := Blocks.data_put_at (m := m.put ⟨.buf, 0⟩ l) (p := ⟨.buf, 0 + l.length⟩) (l := [0]) (k := 0) Nat.one_pos
        dsimp only at hbyte
        rw [Nat.add_zero, Nat.zero_add, hfull] at hbyte
        rw [Nat.zero_add, hfull]
        exact hbyte
      · exact last_put hcut (by rw [List.length_singleton]; omega)

/-- The first completion is written over the line, whose end is then the next zero. -/
theorem writeFirst_some (h : Rows m) (hlast : m.data .buf (bufLen - 1) = 0) (hl : l.length < bufLen) :
    ∃ t n, writeBuf m l = some t ∧ strlen t ⟨.buf, 0⟩ = some n ∧ Rows t ∧ t.data .buf (bufLen - 1) = 0 := by
  have htlast : (m.put ⟨.buf, 0⟩ l).data .buf (bufLen - 1) = 0 := last_put hlast (by omega)
  obtain ⟨l', -, hl'⟩ := isString_buf (h.put_buf 0 l) htlast
  exact ⟨_, _, writeBuf_eq h (Nat.le_of_lt hl), strlen_eq hl', h.put_buf 0 l, htlast⟩

theorem firstTab_exactly (h : Turn (g, line)) :
    Exactly (∀ l r, text g.memory ⟨.buf, 0⟩ = some l → line.request l = some r → FoundFits (tables.found r)) Turn
      (tables.firstTab g line) := by
  have hlast := h.line.terminated
  have hidx := h.line.row.1
  dsimp only at hlast hidx
  obtain ⟨l, hlength, hl⟩ := isString_buf h.shared.rows hlast
  unfold Tables.firstTab
  dsimp only
  rw [text_eq hl, Option.bind_some]
  split
  · next hnone =>
    refine .total ⟨_, rfl, ⟨h.shared.rows, h.shared.last, ?_⟩, h.line.cursor, h.line.command, hlast, hidx, ?_⟩ ?_
    · exact Nat.zero_lt_succ _
    · exact Nat.zero_lt_succ _
    · intro l' r hl' hr
      cases hl'
      rw [hnone] at hr
      exact nomatch hr
  · next r hr =>
    have hkept : ∀ kept, r.kept = some kept → kept.length < bufLen := fun kept hkept => by
      have hle := request_kept hr hkept
      rw [Blocks.length_bytes] at hle
      omega
    obtain ⟨t, ht, hrows, htlast⟩ := cutBuf_some h.shared.rows hlast hkept
    rw [ht, Option.bind_some]
    have hiff : (∀ l' r', some (g.memory.bytes ⟨.buf, 0⟩ l.length) = some l' → line.request l' = some r' →
        FoundFits (tables.found r')) ↔ FoundFits (tables.found r) := by
      refine ⟨fun hall => hall _ r rfl hr, fun hfits l' r' hl' hr' => ?_⟩
      cases hl'
      cases hr.symm.trans hr'
      exact hfits
    refine Exactly.of_iff ?_ hiff
    by_cases hfits : (tables.found r).length ≤ prefixRows ∧ ∀ l ∈ tables.found r, l.length ≤ bufLen
    · unfold fillPrefixList
      rw [if_pos hfits, Option.bind_some]
      cases hfound : tables.found r with
      | nil =>
        rw [if_pos rfl]
        refine .total ⟨_, rfl, ⟨hrows, h.shared.last, ?_⟩, h.line.cursor, h.line.command, htlast, hidx, ?_⟩ ?_
        · exact Nat.zero_lt_succ _
        · exact Nat.zero_lt_succ _
        · exact ⟨Nat.zero_le _, nofun, nofun⟩
      | cons first found =>
        rw [hfound] at hfits
        rw [if_neg (List.cons_ne_nil first found)]
        by_cases hfirst : first.length < bufLen
        · obtain ⟨u, n, hu, hn, hurows, hulast⟩ := writeFirst_some hrows htlast hfirst
          refine .total ?_ ⟨hfits.1, hfits.2, fun l' hl' => Option.some.inj hl' ▸ hfirst⟩
          rw [prefixRow_eq ⟨by decide, hfirst⟩, Option.bind_some]
          dsimp only [List.getElem?_cons_zero, Option.getD_some]
          rw [hu, Option.bind_some, hn, Option.map_some]
          refine ⟨_, rfl, ⟨hurows, h.shared.last, hfirst⟩, Int.natCast_nonneg _, h.line.command, hulast, ?_, hfirst⟩
          exact Nat.zero_lt_succ _
        · refine ⟨fun hP => absurd (hP.first first rfl) hfirst, fun _ => ?_⟩
          have hnone : prefixRow (fun k => (first :: found)[k]?.getD []) 0 = none := if_neg fun hrow => hfirst hrow.2
          rw [hnone]
          rfl
    · refine ⟨fun hP => absurd ⟨hP.count, hP.length⟩ hfits, fun _ => ?_⟩
      unfold fillPrefixList
      rw [if_neg hfits]
      rfl

theorem tab_exactly (h : Turn (g, line)) : Exactly (tables.TabFits g line) Turn (tables.tab g line) := by
  unfold Tables.tab Tables.TabFits
  split
  · exact firstTab_exactly h
  · exact nextTab_exactly h

/-! ### A turn and a run -/

theorem extend_turn (h : Turn (g, line)) : Turn (g, line.extend) ∧ line.extend.i ≤ line.extend.lastIndex := by
  refine ⟨turn_cursor h h.line.cursor rfl rfl, ?_⟩
  unfold Line.extend
  dsimp only
  split <;> omega

/-- The end of the line at the start of a turn. -/
theorem extend_lastIndex_lt : line.extend.lastIndex < z ↔ line.i < z ∧ line.lastIndex < z := by
  unfold Line.extend
  dsimp only
  split <;> omega

theorem endTurn_exactly {turn : Option (Shared × Line)} (h : Exactly P Turn turn) : Exactly P State.Holds (endTurn c turn) := by
  refine h.map fun ⟨g, line⟩ hx => Turn.state (x := (g, { line with lastC := c })) ?_
  exact turn_cursor hx hx.line.cursor rfl rfl

/-- A key other than these takes nothing for granted. -/
theorem keyFits_other (hdown : c ≠ 227) (htab : c ≠ 9) (hdelete : ¬ (c = 0xE9 ∧ line.i > 0))
    (hback : ¬ (c = 8 ∧ line.i > 0)) (henter : ¬ (c = 10 ∨ c = 13)) : tables.KeyFits g line c :=
  ⟨fun h => absurd h hdown, fun h => absurd h htab, fun h hi => absurd ⟨h, hi⟩ hdelete, fun h hi => absurd ⟨h, hi⟩ hback,
    fun h => absurd h henter⟩

/-- A key is read without an access outside the arrays exactly when it fits. -/
theorem readKey_exactly (tables : Tables) (h : Turn (g, line)) (c : Int) :
    Exactly (tables.KeyFits g line c) State.Holds (tables.readKey g line c) := by
  obtain ⟨hturn, hend⟩ := extend_turn h
  have hi : line.extend.i = line.i := rfl
  unfold Tables.readKey
  dsimp only
  split
  · exact .total ⟨_, rfl, h.shared, nofun⟩ (keyFits_other (by omega) (by omega) (by omega) (by omega) (by omega))
  split
  · exact endTurn_exactly (.total (upArrow_some hturn) (keyFits_other (by omega) (by omega) (by omega) (by omega) (by omega)))
  split
  · next hdown =>
    refine endTurn_exactly ((downArrow_exactly hturn).of_iff ⟨fun hfits => hfits.downArrow hdown, fun hle => ?_⟩)
    exact ⟨fun _ => hle, by omega, by omega, by omega, by omega⟩
  split
  · next htab =>
    refine Exactly.map ((tab_exactly hturn).of_iff ⟨fun hfits => hfits.tab htab, fun hfits => ?_⟩) fun _ hx => hx.state
    exact ⟨by omega, fun _ => hfits, by omega, by omega, by omega⟩
  split
  · exact endTurn_exactly (.total ⟨_, rfl, leftArrow_turn hturn⟩
      (keyFits_other (by omega) (by omega) (by omega) (by omega) (by omega)))
  split
  · exact endTurn_exactly (.total ⟨_, rfl, rightArrow_turn hturn⟩
      (keyFits_other (by omega) (by omega) (by omega) (by omega) (by omega)))
  split
  · next hdelete =>
    refine endTurn_exactly ((delete_exactly hturn hend).of_iff ?_)
    rw [extend_lastIndex_lt]
    refine ⟨fun hfits => hfits.delete hdelete.1 hdelete.2, fun hlt => ?_⟩
    exact ⟨by omega, by omega, fun _ _ => hlt, by omega, by omega⟩
  split
  · next htype =>
    obtain ⟨m, hm, htyped⟩ := type_some hturn htype.2.1 c
    exact endTurn_exactly (.total ⟨_, hm, htyped⟩ (keyFits_other (by omega) (by omega) (by omega) (by omega) (by omega)))
  split
  · next hback =>
    refine endTurn_exactly ((backspace_exactly hturn hback.2).of_iff ?_)
    refine ⟨fun hfits => hfits.backspace hback.1 hback.2, fun hlt => ?_⟩
    exact ⟨by omega, by omega, by omega, fun _ _ => hlt, by omega⟩
  split
  · next henter =>
    refine Exactly.map ((enter_exactly hturn hend).of_iff ?_) fun x hx => ⟨hx, nofun⟩
    rw [extend_lastIndex_lt]
    refine ⟨fun hfits => hfits.enter henter, fun hlt => ?_⟩
    exact ⟨by omega, by omega, by omega, by omega, fun _ => hlt⟩
  · exact endTurn_exactly (.total ⟨_, rfl, hturn⟩ (keyFits_other (by omega) (by omega) (by omega) (by omega) (by omega)))

theorem call_some (h : g.Holds) (lastC size : Int) :
    ∃ m, let x : Shared × Line := ({ g with memory := m }, ⟨0, 0, g.lastCommandIdx + 1, 0, size, lastC, false, false⟩)
      g.call lastC size = some ⟨x.1, some x.2⟩ ∧ Turn x := by
  have hlast := h.last
  unfold Shared.call
  rw [writeBuf_eq h.rows (by rw [List.length_replicate]), Option.map_some]
  refine ⟨_, rfl, ⟨h.rows.put_buf 0 _, hlast, h.first⟩, Int.le_refl 0, ⟨?_, Int.le_refl _⟩, last_zeros g.memory, ?_, h.first⟩
  · dsimp only
    omega
  · exact Nat.zero_lt_succ _

theorem step_holds {e : Event} {t : State} (h : s.Holds) (hfits : tables.Fits s e) (hs : tables.step s e = some t) : t.Holds := by
  cases e with
  | call lastC size =>
    unfold Tables.step at hs
    dsimp only at hs
    split at hs
    · obtain ⟨m, hm, hturn⟩ := call_some h.shared lastC size
      cases hm.symm.trans hs
      exact hturn.state
    · exact nomatch hs
  | key c =>
    obtain ⟨line, hline, hkey⟩ := Option.bind_eq_some_iff.mp hs
    obtain ⟨u, hu, hholds⟩ := (readKey_exactly tables ⟨h.shared, h.line line hline⟩ c).some_of (hfits line hline)
    cases hu.symm.trans hkey
    exact hholds

theorem reach_holds (h₀ : s₀.shared.Holds) (hline : s₀.line = none) (h : Reach tables.step tables.Fits s₀ s) : s.Holds :=
  h.invariant ⟨h₀, fun _ heq => nomatch hline.symm.trans heq⟩ fun _ _ _ hs hok he => step_holds hs hok he

end Cmd

end Fos
