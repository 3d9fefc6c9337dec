import Fos.Lib.Reach
import Fos.Lib.Ring

/-! The input buffer of the console in `kern/cons/console.c`. It has a read and a write position and no test for a full buffer. -/

namespace Fos
open Lib

namespace Cons

/-- `CONSBUFSIZE` -/
def bufSize : Nat := 512

/-- `cons` -/
structure Input where
  buf : Nat → UInt8
  rpos : Nat
  wpos : Nat

/-- The structure is static, its fields are zero when the kernel starts. -/
def Input.static : Input := ⟨fun _ => 0, 0, 0⟩

/-- The loop of `cons_intr` for one character `c` that the device gives. -/
def Input.put (s : Input) (c : UInt8) : Input :=
  if c = 0 then s
  else { s with buf := Function.update s.buf s.wpos c, wpos := if s.wpos + 1 = bufSize then 0 else s.wpos + 1 }

/-- `cons_intr`, for the characters that the device gives before its `-1` -/
def Input.consIntr (s : Input) (chars : List UInt8) : Input := chars.foldl Input.put s

/-- `cons_getc2` -/
def Input.consGetc2 (s : Input) : UInt8 × Input :=
  if s.rpos ≠ s.wpos then (s.buf s.rpos, { s with rpos := if s.rpos + 1 = bufSize then 0 else s.rpos + 1 })
  else (0, s)

/-- The buffer, and the characters other than zero that have arrived and are not read yet, the oldest first -/
structure Traffic where
  input : Input
  unread : List UInt8

inductive Event where
  | arrive (chars : List UInt8)
  | read

namespace Traffic

def start : Traffic := ⟨Input.static, []⟩

def step (s : Traffic) : Event → Option Traffic
  | .arrive chars => some ⟨s.input.consIntr chars, s.unread ++ chars.filter (· ≠ 0)⟩
  | .read => some ⟨s.input.consGetc2.2, s.unread.tail⟩

/-- What arrives leaves one cell of the buffer free. -/
def Fits (s : Traffic) : Event → Prop
  | .arrive chars => s.unread.length + (chars.filter (· ≠ 0)).length < bufSize
  | .read => True

instance (s : Traffic) : DecidablePred s.Fits
  | .arrive _ => inferInstanceAs (Decidable (_ < _))
  | .read => inferInstanceAs (Decidable True)

/-- The characters that are not read lie between the positions. -/
structure Holds (s : Traffic) : Prop where
  ring : RingHolds bufSize s.input.buf s.input.rpos s.input.wpos s.unread
  nonzero : ∀ c ∈ s.unread, c ≠ 0

end Traffic

variable {s t : Traffic} {i : Input} {q : List UInt8}

theorem ringHolds_consIntr (h : RingHolds bufSize i.buf i.rpos i.wpos q) {chars : List UInt8}
    (hroom : q.length + (chars.filter (· ≠ 0)).length < bufSize) :
    RingHolds bufSize (i.consIntr chars).buf (i.consIntr chars).rpos (i.consIntr chars).wpos (q ++ chars.filter (· ≠ 0)) := by
  induction chars generalizing i q with
  | nil => simpa [Input.consIntr] using h
  | cons c chars ih =>
    unfold Input.consIntr at ih ⊢
    rw [List.foldl_cons]
    by_cases hc : c = 0
    · -- A zero is what a device without a character gives.
      have hput : i.put c = i := if_pos hc
      rw [hput, List.filter_cons_of_neg (by simpa using hc)] at *
      exact ih h hroom
    · have hput : i.put c = { i with buf := Function.update i.buf i.wpos c, wpos := ringNext bufSize i.wpos } := if_neg hc
      rw [List.filter_cons_of_pos (by simpa using hc), List.length_cons] at hroom
      rw [hput, List.filter_cons_of_pos (by simpa using hc), List.append_cons]
      refine ih (h.put (by omega) c) ?_
      rw [List.length_append, List.length_singleton]
      omega

theorem consGetc2_nil (h : RingHolds bufSize i.buf i.rpos i.wpos []) : i.consGetc2 = (0, i) :=
  if_neg (not_not.mpr (h.eq_iff.mpr rfl))

theorem consGetc2_cons {c : UInt8} (h : RingHolds bufSize i.buf i.rpos i.wpos (c :: q)) :
    i.consGetc2 = (c, { i with rpos := ringNext bufSize i.rpos }) := by
  have hne : i.rpos ≠ i.wpos := fun heq => List.cons_ne_nil c q (h.eq_iff.mp heq)
  have hread : i.consGetc2 = (i.buf i.rpos, { i with rpos := ringNext bufSize i.rpos }) := if_pos hne
  rw [hread, h.get.1]

theorem start_holds : Traffic.start.Holds := ⟨ringHolds_nil (by decide), nofun⟩

theorem step_holds {e : Event} (h : s.Holds) (hfits : s.Fits e) (hs : s.step e = some t) : t.Holds := by
  cases e with
  | arrive chars =>
    cases hs
    refine ⟨ringHolds_consIntr h.ring hfits, fun c hc => ?_⟩
    rcases List.mem_append.mp hc with hc | hc
    · exact h.nonzero c hc
    · simpa using (List.mem_filter.mp hc).2
  | read =>
    cases hs
    obtain ⟨input, unread⟩ := s
    cases unread with
    | nil =>
      rw [consGetc2_nil h.ring]
      exact h
    | cons c unread =>
      rw [consGetc2_cons h.ring]
      exact ⟨h.ring.get.2, fun d hd => h.nonzero d (List.mem_cons_of_mem c hd)⟩

theorem reach_holds (h : Reach Traffic.step Traffic.Fits Traffic.start s) : s.Holds :=
  h.invariant start_holds fun _ _ _ hs hok he => step_holds hs hok he

/-- While what arrives leaves a cell free, a read gives the oldest character that is not read, and zero only when there is
    none. -/
theorem consGetc2_oldest (h : Reach Traffic.step Traffic.Fits Traffic.start s) :
    s.input.consGetc2.1 = s.unread.head?.getD 0 ∧ (s.input.consGetc2.1 = 0 ↔ s.unread = []) := by
  have hs := reach_holds h
  obtain ⟨input, unread⟩ := s
  cases unread with
  | nil =>
    rw [consGetc2_nil hs.ring]
    exact ⟨rfl, iff_of_true rfl rfl⟩
  | cons c unread =>
    rw [consGetc2_cons hs.ring]
    exact ⟨rfl, iff_of_false (hs.nonzero c List.mem_cons_self) (List.cons_ne_nil c unread)⟩

theorem consGetc2_oldest_two : ∃ s : Traffic, s.unread = [66] ∧
    (s.input.consGetc2.1 = s.unread.head?.getD 0 ∧ (s.input.consGetc2.1 = 0 ↔ s.unread = [])) :=
  ⟨_, rfl, consGetc2_oldest (.step .read (.step (.arrive [65, 0, 66]) .init (by decide) rfl) trivial rfl)⟩

/-! ### A buffer that overflows -/

theorem rpos_consIntr (chars : List UInt8) : (i.consIntr chars).rpos = i.rpos := by
  unfold Input.consIntr
  induction chars generalizing i with
  | nil => rfl
  | cons c chars ih =>
    rw [List.foldl_cons, ih]
    unfold Input.put
    split <;> rfl

theorem wpos_consIntr (hi : i.wpos < bufSize) (chars : List UInt8) :
    (i.consIntr chars).wpos = (i.wpos + (chars.filter (· ≠ 0)).length) % bufSize := by
  unfold Input.consIntr
  induction chars generalizing i with
  | nil => exact (Nat.mod_eq_of_lt hi).symm
  | cons c chars ih =>
    rw [List.foldl_cons]
    by_cases hc : c = 0
    · have hput : i.put c = i := if_pos hc
      rw [hput, List.filter_cons_of_neg (by simpa using hc)]
      exact ih hi
    · have hnext : (i.put c).wpos = (i.wpos + 1) % bufSize := by
        rw [← ringNext_eq hi]
        exact congrArg Input.wpos (if_neg hc)
      have hlt : (i.put c).wpos < bufSize := hnext ▸ Nat.mod_lt _ (by decide)
      rw [ih hlt, hnext, Nat.mod_add_mod, List.filter_cons_of_pos (by simpa using hc), List.length_cons]
      congr 1
      omega

/-- As many characters as the buffer has cells bring the write position back to the read position, and no read gives them. -/
theorem consGetc2_full : ∃ s : Traffic, Reach Traffic.step (fun _ _ => True) Traffic.start s ∧
    s.unread.length = bufSize ∧ s.unread.head? = some 65 ∧ s.input.consGetc2.1 = 0 := by
  have hfilter : (List.replicate bufSize (65 : UInt8)).filter (· ≠ 0) = List.replicate bufSize 65 := by
    rw [List.filter_replicate_of_pos (by decide)]
  refine ⟨_, .step (.arrive (List.replicate bufSize 65)) .init trivial rfl, ?_, ?_, ?_⟩
  · rw [hfilter]
    simp [Traffic.start]
  · rw [hfilter]
    rfl
  · refine congrArg Prod.fst (if_neg (not_not.mpr ?_))
    rw [rpos_consIntr, wpos_consIntr (by decide), hfilter, List.length_replicate]
    rfl

end Cons

end Fos
