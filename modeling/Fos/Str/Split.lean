import Fos.Lib.Memory
import Fos.Lib.Runs

/-! `strsplit` and `strchr` (`lib/string.c`). The string is cut in place: the scan overwrites the separators it passes and
    stores where it meets a token. -/

namespace Fos.Str
open Lib

/-! ### The functions -/

/-- The elements of the array `argv` of the callers. -/
def maxArguments : Nat := 16

/-- A loop over a string that has gone through all addresses does not end. -/
def addresses : Nat := 2 ^ 32

/-- `strchr(s, c)`; `none`, here and below, if the loop does not end. -/
def strchr (m : Memory 32) (c : UInt8) : Nat → BitVec 32 → Option (BitVec 32)
  | 0, _ => none
  | fuel + 1, s => if m s = 0 then some 0 else if m s = c then some s else strchr m c fuel (s + 1)

/-- `strchr(SPLIT_CHARS, *string)` as a condition. -/
def isSplitChar (m : Memory 32) (splitChars string : BitVec 32) : Option Bool :=
  (strchr m (m string) addresses splitChars).map fun s => s != 0

/-- `while (*string && strchr(SPLIT_CHARS, *string)) *string++ = 0` -/
def trim (splitChars : BitVec 32) : Nat → Memory 32 → BitVec 32 → Option (Memory 32 × BitVec 32)
  | 0, _, _ => none
  | fuel + 1, m, string =>
    if m string = 0 then some (m, string) else
      (isSplitChar m splitChars string).bind fun sep =>
        if sep then trim splitChars fuel (Function.update m string 0) (string + 1) else some (m, string)

/-- `while (*string && !strchr(SPLIT_CHARS, *string)) string++` -/
def skip (splitChars : BitVec 32) (m : Memory 32) : Nat → BitVec 32 → Option (BitVec 32)
  | 0, _ => none
  | fuel + 1, string =>
    if m string = 0 then some string else
      (isSplitChar m splitChars string).bind fun sep =>
        if sep then some string else skip splitChars m fuel (string + 1)

/-- What `strsplit` writes: the string, and the arguments with their number. -/
structure Split where
  memory : Memory 32
  argv : Nat → BitVec 32
  argc : Nat

/-- `(argv)[*argc] = p`; a write behind the end of the array does not go through. -/
def Split.setArg (x : Split) (p : BitVec 32) : Option Split :=
  if x.argc < maxArguments then some { x with argv := Function.update x.argv x.argc p } else none

/-- The loop of `strsplit`, with what it returns. -/
def splitLoop (splitChars : BitVec 32) : Nat → Split → BitVec 32 → Option (Int × Split)
  | 0, _, _ => none
  | fuel + 1, x, string =>
    (trim splitChars addresses x.memory string).bind fun (m, string) =>
      let x := { x with memory := m }
      if m string = 0 then (x.setArg 0).map fun x => (1, x)
      else if x.argc = maxArguments - 1 then some (0, x)
      else
        (x.setArg string).bind fun x =>
          (skip splitChars m addresses string).bind fun string =>
            splitLoop splitChars fuel { x with argc := x.argc + 1 } string

/-- `strsplit(string, SPLIT_CHARS, argv, argc)` -/
def strsplit (x : Split) (string splitChars : BitVec 32) : Option (Int × Split) :=
  (Split.setArg { x with argc := 0 } 0).bind fun x => splitLoop splitChars addresses x string

/-! ### Strings and their tokens -/

/-- A NUL-terminated string of `len` characters. -/
structure CString (m : Memory 32) (p : BitVec 32) (len : Nat) : Prop where
  nonnull : p ≠ 0
  fits : p.toNat + len < 2 ^ 32
  chars : ∀ k, k < len → m (p + BitVec.ofNat 32 k) ≠ 0
  terminated : m (p + BitVec.ofNat 32 len) = 0

/-- The character at position `k` of the string is none of the `n` separators. -/
def Word (m : Memory 32) (p splitChars : BitVec 32) (n k : Nat) : Prop :=
  ∀ j, j < n → m (splitChars + BitVec.ofNat 32 j) ≠ m (p + BitVec.ofNat 32 k)

instance (m : Memory 32) (p splitChars : BitVec 32) (n : Nat) : DecidablePred (Word m p splitChars n) := fun _ =>
  inferInstanceAs (Decidable (∀ j, j < n → _))

/-- The token `r` of the string at `p` of `m` is a string at `q` of `t`, in its place. -/
structure StoredAt (m t : Memory 32) (p q : BitVec 32) (r : Nat × Nat) : Prop where
  in_place : q = p + BitVec.ofNat 32 r.1
  chars : ∀ k, r.1 ≤ k → k < r.2 → t (p + BitVec.ofNat 32 k) = m (p + BitVec.ofNat 32 k)
  terminated : t (p + BitVec.ofNat 32 r.2) = 0

/-- How `strsplit` ends for the tokens `ts`. -/
structure Tokenised (x y : Split) (p : BitVec 32) (ts : List (Nat × Nat)) (ret : Int) : Prop where
  all : ts.length ≤ maxArguments - 1 → ret = 1 ∧ y.argc = ts.length ∧ y.argv ts.length = 0
  limit : maxArguments - 1 < ts.length → ret = 0 ∧ y.argc = maxArguments - 1
  stored : ∀ i (_ : i < ts.length), i < maxArguments - 1 → StoredAt x.memory y.memory p (y.argv i) ts[i]
  beyond : ∀ i, maxArguments ≤ i → y.argv i = x.argv i

/-- The memory in which the separators before position `i` are overwritten. -/
def cut (m : Memory 32) (p splitChars : BitVec 32) (n i : Nat) : Memory 32 := fun a =>
  if (a - p).toNat < i ∧ ¬ Word m p splitChars n (a - p).toNat then 0 else m a

/-- The arguments that point to the tokens of `ts`. -/
def argsOf (p : BitVec 32) (argv : Nat → BitVec 32) (ts : List (Nat × Nat)) : Nat → BitVec 32 := fun i =>
  match ts[i]? with
  | some r => p + BitVec.ofNat 32 r.1
  | none => argv i

variable {m t : Memory 32} {p q a : BitVec 32} {argv : Nat → BitVec 32} {len n i j k fuel : Nat} {c : UInt8}
  {r : Nat × Nat} {ts : List (Nat × Nat)}

/-! ### What is cut -/

@[simp] theorem cut_zero : cut m p q n 0 = m := funext fun _ => if_neg fun h => Nat.not_lt_zero _ h.1

theorem cut_at (hk : k < 2 ^ 32) :
    cut m p q n i (p + BitVec.ofNat 32 k) = if k < i ∧ ¬ Word m p q n k then 0 else m (p + BitVec.ofNat 32 k) := by
  unfold cut
  rw [Memory.offset_ofNat hk]

theorem cut_outside (h : i ≤ (a - p).toNat) : cut m p q n i a = m a := if_neg fun hcut => Nat.not_lt.mpr h hcut.1

theorem cut_succ_word (hi : Word m p q n i) : cut m p q n (i + 1) = cut m p q n i := by
  funext a
  unfold cut
  refine if_congr ⟨fun h => ⟨?_, h.2⟩, fun h => ⟨Nat.lt_succ_of_lt h.1, h.2⟩⟩ rfl rfl
  exact Nat.lt_of_le_of_ne (Nat.le_of_lt_succ h.1) fun heq => h.2 (heq ▸ hi)

theorem cut_succ_sep (hi : ¬ Word m p q n i) (hlt : i < 2 ^ 32) :
    cut m p q n (i + 1) = Function.update (cut m p q n i) (p + BitVec.ofNat 32 i) 0 := by
  funext a
  by_cases ha : a = p + BitVec.ofNat 32 i
  · rw [ha, Function.update_self, cut_at hlt, if_pos ⟨Nat.lt_succ_self i, hi⟩]
  · have hne : (a - p).toNat ≠ i := fun heq => ha <| by
      rw [← heq, BitVec.ofNat_toNat, BitVec.setWidth_eq, BitVec.add_comm, BitVec.sub_add_cancel]
    rw [Function.update_of_ne ha]
    exact if_congr (and_congr_left' (by omega)) rfl rfl

theorem cut_words (hij : i ≤ j) (hwords : ∀ k, i ≤ k → k < j → Word m p q n k) : cut m p q n j = cut m p q n i := by
  induction j, hij using Nat.le_induction with
  | base => rfl
  | succ j hij ih => rw [cut_succ_word (hwords j hij (Nat.lt_succ_self j)), ih fun k hk hkj => hwords k hk (by omega)]

/-! ### The loops -/

/-- The separators are looked up in a memory in which they are as before. -/
theorem strchr_spec (fuel : Nat) (hq : CString m q n) (hsame : ∀ j, j ≤ n → t (q + BitVec.ofNat 32 j) = m (q + BitVec.ofNat 32 j))
    (hj : j ≤ n) (hfuel : n - j < fuel) : ∃ s, strchr t c fuel (q + BitVec.ofNat 32 j) = some s ∧
      (s ≠ 0 ↔ ∃ i, j ≤ i ∧ i < n ∧ m (q + BitVec.ofNat 32 i) = c) := by
  induction fuel generalizing j with
  | zero => omega
  | succ fuel ih =>
    rw [strchr, hsame j hj]
    rcases Nat.eq_or_lt_of_le hj with rfl | hlt
    · rw [if_pos hq.terminated]
      refine ⟨0, rfl, iff_of_false (not_not.mpr rfl) ?_⟩
      rintro ⟨i, hji, hij, -⟩
      omega
    · rw [if_neg (hq.chars j hlt)]
      split
      case isTrue hc =>
        refine ⟨_, rfl, iff_of_true (fun hzero => ?_) ⟨j, Nat.le_refl j, hlt, hc⟩⟩
        have hnat := congrArg BitVec.toNat hzero
        have hfits := hq.fits
        have hnonnull : q.toNat ≠ 0 := fun h => hq.nonnull (BitVec.eq_of_toNat_eq h)
        simp only [BitVec.toNat_add, BitVec.toNat_ofNat, BitVec.ofNat_eq_ofNat] at hnat
        omega
      case isFalse hc =>
        obtain ⟨s, hs, hiff⟩ := ih (j := j + 1) (by omega) (by omega)
        rw [show (1 : BitVec 32) = BitVec.ofNat 32 1 from rfl, Memory.add_ofNat_add]
        refine ⟨s, hs, hiff.trans ⟨?_, ?_⟩⟩
        · rintro ⟨i, hji, hin, heq⟩
          exact ⟨i, by omega, hin, heq⟩
        · rintro ⟨i, hji, hin, heq⟩
          refine ⟨i, Nat.lt_of_le_of_ne hji fun h => hc (h ▸ heq), hin, heq⟩

section
variable (hp : CString m p len) (hq : CString m q n) (hsep : p.toNat + len ≤ q.toNat ∨ q.toNat + n < p.toNat)
include hp hq hsep

/-- The separators are not among what is cut. -/
theorem cut_splitChars (hi : i ≤ len) (hj : j ≤ n) : cut m p q n i (q + BitVec.ofNat 32 j) = m (q + BitVec.ofNat 32 j) := by
  refine cut_outside ?_
  have hpf := hp.fits
  have hqf := hq.fits
  rw [BitVec.toNat_sub, BitVec.toNat_add, BitVec.toNat_ofNat]
  omega

theorem isSplitChar_cut (hi : i ≤ k) (hk : k < len) :
    isSplitChar (cut m p q n i) q (p + BitVec.ofNat 32 k) = some (decide ¬ Word m p q n k) := by
  have hpf := hp.fits
  have hqf := hq.fits
  have hchar : cut m p q n i (p + BitVec.ofNat 32 k) = m (p + BitVec.ofNat 32 k) := by
    rw [cut_at (by omega), if_neg fun h => Nat.not_lt.mpr hi h.1]
  obtain ⟨s, hs, hiff⟩ := strchr_spec (t := cut m p q n i) (c := m (p + BitVec.ofNat 32 k)) addresses hq
    (fun j hj => cut_splitChars hp hq hsep (by omega) hj) (Nat.zero_le n) (by unfold addresses; omega)
  rw [show q + BitVec.ofNat 32 0 = q from BitVec.add_zero q] at hs
  have hword : (s != 0) = decide ¬ Word m p q n k := by
    rw [Bool.eq_iff_iff, bne_iff_ne, decide_eq_true_iff, hiff]
    unfold Word
    push Not
    exact exists_congr fun j => and_iff_right (Nat.zero_le j)
  rw [isSplitChar, hchar, hs, Option.map_some, hword]

theorem trim_cut (hij : i ≤ j) (hj : j ≤ len) (hgap : ∀ k, i ≤ k → k < j → ¬ Word m p q n k) (hend : j < len → Word m p q n j)
    (hfuel : j - i < fuel) :
    trim q fuel (cut m p q n i) (p + BitVec.ofNat 32 i) = some (cut m p q n j, p + BitVec.ofNat 32 j) := by
  have hfits := hp.fits
  induction fuel generalizing i with
  | zero => omega
  | succ fuel ih =>
    have hchar : cut m p q n i (p + BitVec.ofNat 32 i) = m (p + BitVec.ofNat 32 i) := by
      rw [cut_at (by omega), if_neg fun h => Nat.lt_irrefl i h.1]
    rw [trim, hchar]
    rcases Nat.eq_or_lt_of_le hij with rfl | hlt
    · rcases Nat.eq_or_lt_of_le hj with rfl | hlen
      · rw [if_pos hp.terminated]
      · rw [if_neg (hp.chars i hlen), isSplitChar_cut hp hq hsep (Nat.le_refl i) hlen, Option.bind_some,
          decide_eq_false (not_not.mpr (hend hlen)), if_neg Bool.false_ne_true]
    · have hgapi := hgap i (Nat.le_refl i) hlt
      rw [if_neg (hp.chars i (by omega)), isSplitChar_cut hp hq hsep (Nat.le_refl i) (by omega), Option.bind_some,
        decide_eq_true hgapi, if_pos rfl, ← cut_succ_sep hgapi (by omega),
        show (1 : BitVec 32) = BitVec.ofNat 32 1 from rfl, Memory.add_ofNat_add]
      exact ih hlt (fun k hk hkj => hgap k (by omega) hkj) (by omega)

theorem skip_cut (hi : i ≤ j) (hjk : j ≤ k) (hk : k ≤ len) (hwords : ∀ l, j ≤ l → l < k → Word m p q n l)
    (hend : k < len → ¬ Word m p q n k) (hfuel : k - j < fuel) :
    skip q (cut m p q n i) fuel (p + BitVec.ofNat 32 j) = some (p + BitVec.ofNat 32 k) := by
  have hfits := hp.fits
  induction fuel generalizing j with
  | zero => omega
  | succ fuel ih =>
    have hchar : cut m p q n i (p + BitVec.ofNat 32 j) = m (p + BitVec.ofNat 32 j) := by
      rw [cut_at (by omega), if_neg fun h => Nat.not_lt.mpr hi h.1]
    rw [skip, hchar]
    rcases Nat.eq_or_lt_of_le hjk with rfl | hlt
    · rcases Nat.eq_or_lt_of_le hk with rfl | hlen
      · rw [if_pos hp.terminated]
      · rw [if_neg (hp.chars j hlen), isSplitChar_cut hp hq hsep hi hlen, Option.bind_some, decide_eq_true (hend hlen),
          if_pos rfl]
    · rw [if_neg (hp.chars j (by omega)), isSplitChar_cut hp hq hsep hi (by omega), Option.bind_some,
        decide_eq_false (not_not.mpr (hwords j (Nat.le_refl j) hlt)), if_neg Bool.false_ne_true,
        show (1 : BitVec 32) = BitVec.ofNat 32 1 from rfl, Memory.add_ofNat_add]
      exact ih (by omega) hlt (fun l hl hlk => hwords l (by omega) hlk) (by omega)

end

theorem argsOf_snoc (ts : List (Nat × Nat)) (r : Nat × Nat) :
    Function.update (argsOf p argv ts) ts.length (p + BitVec.ofNat 32 r.1) = argsOf p argv (ts ++ [r]) := by
  funext i
  unfold argsOf
  rcases Nat.lt_trichotomy i ts.length with hlt | rfl | hgt
  · rw [Function.update_of_ne (Nat.ne_of_lt hlt), List.getElem?_append_left hlt]
  · rw [Function.update_self, List.getElem?_concat_length]
  · rw [Function.update_of_ne (Nat.ne_of_gt hgt), List.getElem?_eq_none (Nat.le_of_lt hgt),
      List.getElem?_eq_none (by rw [List.length_append]; exact hgt)]

/-- How the loop ends that meets all of `ts`, whether or not some are stored already. -/
def SplitEnd (m : Memory 32) (p q : BitVec 32) (n len : Nat) (argv : Nat → BitVec 32) (ts : List (Nat × Nat))
    (res : Option (Int × Split)) : Prop :=
  (ts.length ≤ maxArguments - 1 ∧
    res = some (1, ⟨cut m p q n len, Function.update (argsOf p argv ts) ts.length 0, ts.length⟩)) ∨
  ∃ r, ts[maxArguments - 1]? = some r ∧
    res = some (0, ⟨cut m p q n r.1, argsOf p argv (ts.take (maxArguments - 1)), maxArguments - 1⟩)

theorem splitLoop_end (argv : Nat → BitVec 32) (stored : List (Nat × Nat)) (fuel : Nat) (hp : CString m p len)
    (hq : CString m q n) (hsep : p.toNat + len ≤ q.toNat ∨ q.toNat + n < p.toNat)
    (hruns : RunsFrom (Word m p q n) len i ts) (hstored : stored.length ≤ maxArguments - 1)
    (hfuel : maxArguments - stored.length ≤ fuel) :
    SplitEnd m p q n len argv (stored ++ ts)
      (splitLoop q fuel ⟨cut m p q n i, argsOf p argv stored, stored.length⟩ (p + BitVec.ofNat 32 i)) := by
  have hfits := hp.fits
  have hmax : maxArguments = 16 := rfl
  induction hruns generalizing stored fuel with
  | @done i hi hgap =>
    obtain ⟨fuel, rfl⟩ : ∃ f, fuel = f + 1 := ⟨fuel - 1, by omega⟩
    have hnul : cut m p q n len (p + BitVec.ofNat 32 len) = 0 := by
      rw [cut_at (by omega), if_neg fun h => Nat.lt_irrefl len h.1, hp.terminated]
    have hroom : stored.length < maxArguments := by omega
    refine .inl ⟨by rwa [List.append_nil], ?_⟩
    rw [splitLoop, trim_cut hp hq hsep hi (Nat.le_refl len) hgap (fun h => absurd h (Nat.lt_irrefl len))
      (by unfold addresses; omega)]
    simp only [Option.bind_some, hnul, if_true, Split.setArg, hroom, Option.map_some, List.append_nil]
  | @run i r ts hi hgap hrun hts ih =>
    obtain ⟨fuel, rfl⟩ : ∃ f, fuel = f + 1 := ⟨fuel - 1, by omega⟩
    have hbounded := hrun.bounded
    have hnonempty := hrun.nonempty
    have hchar : cut m p q n r.1 (p + BitVec.ofNat 32 r.1) ≠ 0 := by
      rw [cut_at (by omega), if_neg fun h => Nat.lt_irrefl r.1 h.1]
      exact hp.chars r.1 (by omega)
    rw [splitLoop, trim_cut hp hq hsep hi (by omega) hgap (fun _ => hrun.inside r.1 (Nat.le_refl _) hnonempty)
      (by unfold addresses; omega)]
    simp only [Option.bind_some, hchar, if_false]
    rcases Nat.eq_or_lt_of_le hstored with hfull | hlt
    · -- The token that is met has no place.
      refine .inr ⟨r, ?_, ?_⟩
      · rw [← hfull, List.getElem?_append_right (Nat.le_refl _), Nat.sub_self, List.getElem?_cons_zero]
      · rw [if_pos hfull, ← hfull, List.take_left]
    · have hroom : stored.length < maxArguments := by omega
      have hstep := ih (stored ++ [r]) fuel (by rw [List.length_append, List.length_singleton]; omega)
        (by rw [List.length_append, List.length_singleton]; omega)
      rw [List.append_assoc, List.singleton_append, ← argsOf_snoc, List.length_append, List.length_singleton,
        cut_words hnonempty.le hrun.inside] at hstep
      simp only [Nat.ne_of_lt hlt, if_false, Split.setArg, hroom, if_true, Option.bind_some]
      rw [skip_cut hp hq hsep (Nat.le_refl r.1) hnonempty.le hbounded hrun.inside hrun.right (by unfold addresses; omega)]
      exact hstep

/-! ### The arguments -/

theorem argsOf_get (hi : i < ts.length) : argsOf p argv ts i = p + BitVec.ofNat 32 ts[i].1 := by
  unfold argsOf
  rw [List.getElem?_eq_getElem hi]

theorem argsOf_beyond (hi : ts.length ≤ i) : argsOf p argv ts i = argv i := by
  unfold argsOf
  rw [List.getElem?_eq_none hi]

/-- A token before the position up to which the separators are overwritten is a string. -/
theorem storedAt_cut (hp : CString m p len) (hr : IsRun (Word m p q n) len r) (hlt : r.2 < len → r.2 < i) :
    StoredAt m (cut m p q n i) p (p + BitVec.ofNat 32 r.1) r := by
  have hfits := hp.fits
  have hbounded := hr.bounded
  refine ⟨rfl, fun k hk hkr => ?_, ?_⟩
  · rw [cut_at (by omega), if_neg fun h => h.2 (hr.inside k hk hkr)]
  · rw [cut_at (by omega)]
    rcases Nat.eq_or_lt_of_le hbounded with heq | hlen
    · rw [heq, hp.terminated, ite_self]
    · rw [if_pos ⟨hlt hlen, hr.right hlen⟩]

/-- The string is cut into its maximal runs of characters that are no separators. -/
theorem strsplit_tokenises (x : Split) (p q : BitVec 32) (len n : Nat) (ts : List (Nat × Nat)) (hp : CString x.memory p len)
    (hq : CString x.memory q n) (hsep : p.toNat + len ≤ q.toNat ∨ q.toNat + n < p.toNat)
    (hts : MaximalRuns (Word x.memory p q n) len ts) :
    ∃ ret y, strsplit x p q = some (ret, y) ∧ Tokenised x y p ts ret ∧
      ∀ a, len ≤ (a - p).toNat → y.memory a = x.memory a := by
  have hmax : maxArguments = 16 := rfl
  have hrun : ∀ i (hi : i < ts.length), IsRun (Word x.memory p q n) len ts[i] := fun i hi =>
    (hts.mem_iff _).mp (List.getElem_mem hi)
  have hbeyond : ∀ i, maxArguments ≤ i → Function.update x.argv 0 0 i = x.argv i := fun i hi =>
    Function.update_of_ne (by omega) ..
  have hend := splitLoop_end (Function.update x.argv 0 0) [] addresses hp hq hsep hts.runsFrom (Nat.zero_le _) (by decide)
  rw [cut_zero, show p + BitVec.ofNat 32 0 = p from BitVec.add_zero p, List.nil_append] at hend
  rcases hend with ⟨hle, hres⟩ | ⟨r, hr, hres⟩
  · refine ⟨1, _, hres, ⟨fun _ => ⟨rfl, rfl, Function.update_self ..⟩, fun h => by omega, fun i hi _ => ?_, fun i hi => ?_⟩,
      fun a ha => cut_outside ha⟩
    · dsimp only
      rw [Function.update_of_ne (Nat.ne_of_lt hi), argsOf_get hi]
      exact storedAt_cut hp (hrun i hi) id
    · dsimp only
      rw [Function.update_of_ne (by omega), argsOf_beyond (by omega), hbeyond i hi]
  · obtain ⟨hlen, rfl⟩ := List.getElem?_eq_some_iff.mp hr
    have htake : (ts.take (maxArguments - 1)).length = maxArguments - 1 := List.length_take_of_le (by omega)
    have hr := hrun _ hlen
    have hnonempty := hr.nonempty
    have hbounded := hr.bounded
    refine ⟨0, _, hres, ⟨fun h => by omega, fun _ => ⟨rfl, rfl⟩, fun i hi hstored => ?_, fun i hi => ?_⟩, fun a ha => ?_⟩
    · dsimp only
      rw [argsOf_get (by omega), List.getElem_take]
      have hordered := List.pairwise_iff_getElem.mp hts.ordered i (maxArguments - 1) hi hlen hstored
      exact storedAt_cut hp (hrun i hi) fun _ => (hrun i hi).lt_of_lt hr hordered
    · dsimp only
      rw [argsOf_beyond (by omega), hbeyond i hi]
    · exact cut_outside (by omega)

theorem maximalRuns_two {word : Nat → Prop} (h0 : word 0) (h1 : ¬ word 1) (h2 : word 2) :
    MaximalRuns word 3 [(0, 1), (2, 3)] := by
  refine ⟨fun r => ⟨fun hr => ?_, fun h => ?_⟩, by simp⟩
  · have hinside : ∀ a k, a ≤ k → k < a + 1 → k = a := fun a k hk hlt => by omega
    rcases List.mem_pair.mp hr with rfl | rfl
    · exact ⟨by decide, by decide, fun k hk hlt => hinside 0 k hk hlt ▸ h0, fun k hk => by simp at hk, fun _ => h1⟩
    · refine ⟨by decide, by decide, fun k hk hlt => hinside 2 k hk hlt ▸ h2, fun k hk => ?_, fun h => absurd h (by decide)⟩
      rwa [Nat.succ_injective hk]
  · obtain ⟨a, b⟩ := r
    obtain ⟨hnonempty, hbounded, hinside, -, -⟩ := h
    dsimp only at hnonempty hbounded hinside
    have hgap : ¬ (a ≤ 1 ∧ 1 < b) := fun hin => h1 (hinside 1 hin.1 hin.2)
    simp only [List.mem_cons, Prod.mk.injEq, List.not_mem_nil, or_false]
    omega

/-- The string "a b" with the blank as the only separator. -/
theorem strsplit_tokenises_two :
    let text : Memory 32 := fun a => if a = 0x1000 then 97 else if a = 0x1001 ∨ a = 0x2000 then 32 else if a = 0x1002 then 98 else 0
    ∃ ret y, strsplit ⟨text, fun _ => 0, 0⟩ 0x1000 0x2000 = some (ret, y) ∧
      Tokenised ⟨text, fun _ => 0, 0⟩ y 0x1000 [(0, 1), (2, 3)] ret ∧ ∀ a, 3 ≤ (a - 0x1000).toNat → y.memory a = text a :=
  strsplit_tokenises ⟨_, fun _ => 0, 0⟩ 0x1000 0x2000 3 1 [(0, 1), (2, 3)]
    ⟨by decide, by decide, by decide, by decide⟩ ⟨by decide, by decide, by decide, by decide⟩ (.inl (by decide))
    (maximalRuns_two (by decide) (by decide) (by decide))

end Fos.Str
