import Fos.Cmd.ReadlineInv

/-! Runs of the line editor from the histories there can be, and the keys that lead it out of its buffers. -/

namespace Fos
open Lib Str

namespace Cmd

/-- The history of the commands given, the oldest first -/
def Shared.ofHistory (commands : List (List UInt8)) : Shared where
  memory := ⟨Block.size, fun b k => match b with
    | .buf => 0
    | .commandHistory r => (commands[r]?.getD [])[k]?.getD 0⟩
  lastCommandIdx := commands.length - 1
  prefixList _ := []

/-- No call has been made yet. -/
def State.ofHistory (commands : List (List UInt8)) : State := ⟨.ofHistory commands, none⟩

/-- `n` times the letter `a` and the Backspace key -/
def typeAndErase : Nat → List Event
  | 0 => []
  | n + 1 => .key 97 :: .key 8 :: typeAndErase n

variable {tables : Tables} {g : Shared} {line : Line} {s s₀ : State} {commands : List (List UInt8)} {c : Int} {n : Nat}

theorem ofHistory_holds (hcount : commands.length ≤ historyMax + 1) (hlength : ∀ l ∈ commands, l.length < bufLen) :
    (Shared.ofHistory commands).Holds where
  rows := by
    refine ⟨rfl, fun k _ => ?_⟩
    by_cases hin : k < commands.length
    · refine ⟨commands[k].length, hlength _ (List.getElem_mem hin), ?_⟩
      dsimp only [Shared.ofHistory]
      rw [List.getElem?_eq_getElem hin, Option.getD_some, List.getElem?_eq_none (Nat.le_refl _), Option.getD_none]
    · refine ⟨0, by decide, ?_⟩
      dsimp only [Shared.ofHistory]
      rw [List.getElem?_eq_none (Nat.le_of_not_lt hin)]
      rfl
  last := by
    dsimp only [Shared.ofHistory]
    omega
  first := Nat.zero_lt_succ _

theorem step_call (tables : Tables) (h : g.Holds) (lastC size : Int) :
    ∃ m, let x : Shared × Line := ({ g with memory := m }, ⟨0, 0, g.lastCommandIdx + 1, 0, size, lastC, false, false⟩)
      tables.step ⟨g, none⟩ (.call lastC size) = some ⟨x.1, some x.2⟩ ∧ Turn x := call_some h lastC size

/-- After keys that fit, in whatever order and over however many calls, a key stays inside the line and the history
    exactly when it fits. -/
theorem readKey_in_bounds (h₀ : s₀.shared.Holds) (hline₀ : s₀.line = none) (h : Reach tables.step tables.Fits s₀ s)
    (hline : s.line = some line) (c : Int) : (∃ t, tables.readKey s.shared line c = some t) ↔ tables.KeyFits s.shared line c :=
  (readKey_exactly tables ⟨(reach_holds h₀ hline₀ h).shared, (reach_holds h₀ hline₀ h).line line hline⟩ c).isSome_iff

theorem readKey_in_bounds_enter : ∃ s line,
    Reach (Tables.step ⟨[], [], []⟩) (Tables.Fits ⟨[], [], []⟩) (.ofHistory [[97]]) s ∧ s.line = some line ∧
    ((∃ t, Tables.readKey ⟨[], [], []⟩ s.shared line 10 = some t) ↔ Tables.KeyFits ⟨[], [], []⟩ s.shared line 10) := by
  have h₀ : (Shared.ofHistory [[97]]).Holds := ofHistory_holds (by decide) (by decide)
  obtain ⟨m, hcall, -⟩ := step_call ⟨[], [], []⟩ h₀ 0 0
  exact ⟨_, _, .step (.call 0 0) .init trivial hcall, rfl,
    readKey_in_bounds h₀ rfl (.step (.call 0 0) .init trivial hcall) rfl 10⟩

/-! ### Out of the buffers -/

theorem readKey_type (hc : 32 ≤ c ∧ c < 226) (hi : line.i < bufLen - 1) :
    tables.readKey g line c = endTurn c (g.type line.extend c) := by
  unfold Tables.readKey
  dsimp only
  rw [if_neg (by omega), if_neg (by omega), if_neg (by omega), if_neg (by omega), if_neg (by omega), if_neg (by omega),
    if_neg (by omega)]
  exact if_pos ⟨hc.1, hi, by omega, by omega⟩

theorem readKey_backspace (hi : 0 < line.i) : tables.readKey g line 8 = endTurn 8 (g.backspace line.extend) := by
  unfold Tables.readKey
  dsimp only
  rw [if_neg (by omega), if_neg (by omega), if_neg (by omega), if_neg (by omega), if_neg (by omega), if_neg (by omega),
    if_neg (by omega), if_neg (by omega)]
  exact if_pos ⟨rfl, hi⟩

theorem extend_self (h : line.i ≤ line.lastIndex) : line.extend = line := by
  unfold Line.extend
  rw [if_neg (by omega)]

/-- A letter moves the end of the line. -/
theorem type_first (tables : Tables) (h : Turn (g, line)) (hi : line.i = 0) (hl : 0 ≤ line.lastIndex)
    (hu : line.lastIndex < 2147483647) :
    ∃ g' line', tables.step ⟨g, some line⟩ (.key 97) = some ⟨g', some line'⟩ ∧ Turn (g', line') ∧
      line'.i = 1 ∧ line'.lastIndex = line.lastIndex + 1 := by
  have hbuf : (bufLen : Int) = 1024 := rfl
  obtain ⟨m, hm, htyped⟩ := type_some h (by omega) 97
  have hkey : tables.readKey g line 97 = endTurn 97 (g.type line 97) := by
    rw [readKey_type (by decide) (by omega), extend_self (by omega)]
  rw [hm] at hkey
  refine ⟨_, _, hkey, turn_cursor htyped htyped.line.cursor rfl rfl, ?_, int32_eq (by omega) (by omega)⟩
  dsimp only
  omega

/-- Erasing the letter does not move it back. -/
theorem erase_first (tables : Tables) (h : Turn (g, line)) (hi : line.i = 1) (hl : 1 ≤ line.lastIndex) :
    ∃ g' line', tables.step ⟨g, some line⟩ (.key 8) = some ⟨g', some line'⟩ ∧ Turn (g', line') ∧
      line'.i = 0 ∧ line'.lastIndex = line.lastIndex := by
  have hbuf : (bufLen : Int) = 1024 := rfl
  obtain ⟨m, hm, herased⟩ := backspace_some h (by omega) (by omega)
  have hkey : tables.readKey g line 8 = endTurn 8 (g.backspace line) := by
    rw [readKey_backspace (by omega), extend_self (by omega)]
  rw [hm] at hkey
  refine ⟨_, _, hkey, turn_cursor herased herased.line.cursor rfl rfl, ?_, rfl⟩
  dsimp only
  omega

theorem typeAndErase_moves (tables : Tables) (h : Turn (g, line)) (hi : line.i = 0) (hl : 0 ≤ line.lastIndex)
    (hu : line.lastIndex + n ≤ 2147483647) :
    ∃ g' line', exec tables.step ⟨g, some line⟩ (typeAndErase n) = some ⟨g', some line'⟩ ∧ Turn (g', line') ∧
      line'.lastIndex = line.lastIndex + n := by
  induction n generalizing g line with
  | zero => exact ⟨g, line, rfl, h, (Int.add_zero _).symm⟩
  | succ n ih =>
    obtain ⟨g₁, line₁, hstep₁, h₁, hi₁, hl₁⟩ := type_first tables h hi hl (by omega)
    obtain ⟨g₂, line₂, hstep₂, h₂, hi₂, hl₂⟩ := erase_first tables h₁ hi₁ (by omega)
    obtain ⟨g', line', he, hturn, hend⟩ := ih h₂ hi₂ (by omega) (by omega)
    refine ⟨g', line', ?_, hturn, by omega⟩
    exact exec_cons.mpr ⟨_, hstep₁, exec_cons.mpr ⟨_, hstep₂, he⟩⟩

theorem enter_none (h : Turn (g, line)) (hout : g.lastCommandIdx < 0 ∨ bufLen ≤ line.lastIndex) :
    tables.step ⟨g, some line⟩ (.key 10) = none := by
  refine (readKey_exactly tables h 10).none_of fun hfits => ?_
  have henter := hfits.enter (.inl rfl)
  omega

/-- The first command that is entered is compared with `command_history[-1]`; and a line that is typed and erased as often as
    `buf` has characters is ended behind `buf`. -/
theorem readKey_out_of_bounds : ∃ s t, exec (Tables.step ⟨[], [], []⟩) (.ofHistory []) [.call 0 0] = some s ∧
    Tables.step ⟨[], [], []⟩ s (.key 10) = none ∧
    exec (Tables.step ⟨[], [], []⟩) (.ofHistory [[97]]) (.call 0 0 :: typeAndErase 1024) = some t ∧
    Tables.step ⟨[], [], []⟩ t (.key 10) = none := by
  have hempty : (Shared.ofHistory []).Holds := ofHistory_holds (by decide) (by decide)
  have hone : (Shared.ofHistory [[97]]).Holds := ofHistory_holds (by decide) (by decide)
  obtain ⟨m, hcall, hturn⟩ := step_call ⟨[], [], []⟩ hempty 0 0
  obtain ⟨m', hcall', hturn'⟩ := step_call ⟨[], [], []⟩ hone 0 0
  obtain ⟨g, line, he, hmoved, hend⟩ := typeAndErase_moves ⟨[], [], []⟩ (n := 1024) hturn' rfl (Int.le_refl 0)
    (by decide)
  have hfirst : (Shared.ofHistory []).lastCommandIdx < 0 := Int.sub_lt_self 0 Int.one_pos
  have hbehind : (bufLen : Int) ≤ line.lastIndex := by
    rw [hend]
    decide
  exact ⟨_, _, exec_cons.mpr ⟨_, hcall, rfl⟩, enter_none hturn (.inl hfirst), exec_cons.mpr ⟨_, hcall', he⟩,
    enter_none hmoved (.inr hbehind)⟩

end Cmd

end Fos
