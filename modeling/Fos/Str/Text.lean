import Fos.Lib.Blocks

/-! `strlen`, `strcmp` and `strcconcat` (`lib/string.c`). The arguments of the last may be the same string. -/

namespace Fos.Str
open Lib

variable {β : Type} [DecidableEq β] {m t : Blocks β} {p q src dst : Ptr β} {l l' : List UInt8} {c : UInt8} {n fuel : Nat}

omit [DecidableEq β] in
/-- The loop of `strlen`; `none`, here and below, if an access is outside its block, which ends the loop. -/
def strlenLoop (m : Blocks β) : Nat → Ptr β → Nat → Option Nat
  | 0, _, _ => none
  | fuel + 1, s, n => (m.load s).bind fun c => if c ≠ 0 then strlenLoop m fuel (s + 1) (n + 1) else some n

/-- `strlen(s)` -/
def strlen (m : Blocks β) (s : Ptr β) : Option Nat := strlenLoop m (m.size s.block) s 0

omit [DecidableEq β] in
/-- The characters that a loop over `strlen(s)` reads. -/
def text (m : Blocks β) (s : Ptr β) : Option (List UInt8) := (strlen m s).map (m.bytes s)

omit [DecidableEq β] in
/-- The loop of `strcmp` -/
def strcmpLoop (m : Blocks β) : Nat → Ptr β → Ptr β → Option Int
  | 0, _, _ => none
  | fuel + 1, p, q => (m.load p).bind fun a => (m.load q).bind fun b =>
    if a ≠ 0 ∧ a = b then strcmpLoop m fuel (p + 1) (q + 1) else some ((a.toNat : Int) - b.toNat)

/-- `strcmp(p, q)` -/
def strcmp (m : Blocks β) (p q : Ptr β) : Option Int := strcmpLoop m (m.size p.block) p q

/-- `for (i = 0; i < n; i++) dst[i] = src[i]` -/
def copyChars : Nat → Ptr β → Ptr β → Blocks β → Option (Blocks β)
  | 0, _, _, m => some m
  | n + 1, src, dst, m => (m.load src).bind fun c => (m.store dst c).bind fun m => copyChars n (src + 1) (dst + 1) m

/-- `strcconcat(str1, str2, final)` -/
def strcconcat (m : Blocks β) (str1 str2 final : Ptr β) : Option (Blocks β) :=
  (strlen m str1).bind fun len1 =>
    (strlen m str2).bind fun len2 =>
      (copyChars len1 str1 final m).bind fun m =>
        (copyChars len2 str2 (final + len1) m).bind fun m => m.store (final + len1 + len2) 0

omit [DecidableEq β] in
theorem strlenLoop_eq (h : m.IsString p l) (hfuel : l.length < fuel) (n : Nat) :
    strlenLoop m fuel p n = some (n + l.length) := by
  obtain ⟨fuel, rfl⟩ := Nat.exists_eq_succ_of_ne_zero (Nat.ne_of_gt (Nat.zero_lt_of_lt hfuel))
  induction l generalizing p n fuel with
  | nil =>
    rw [strlenLoop, h.holds.load_zero]
    rfl
  | cons c l ih =>
    have hne : c ≠ 0 := fun hc => h.nonzero (hc ▸ List.mem_cons_self)
    obtain ⟨fuel, rfl⟩ := Nat.exists_eq_succ_of_ne_zero (n := fuel) (by rw [List.length_cons] at hfuel; omega)
    rw [strlenLoop, h.holds.load_zero, Option.bind_some, if_pos hne,
      ih h.tail (n + 1) fuel (Nat.lt_of_succ_lt_succ hfuel), List.length_cons]
    congr 1
    omega

omit [DecidableEq β] in
theorem strlen_eq (h : m.IsString p l) : strlen m p = some l.length := by
  have hfits := h.holds.fits
  rw [List.length_append, List.length_singleton] at hfits
  have heq := strlenLoop_eq h (by omega : l.length < m.size p.block) 0
  rwa [Nat.zero_add] at heq

omit [DecidableEq β] in
/-- There is one text only. -/
theorem isString_unique (h : m.IsString p l) (h' : m.IsString p l') : l = l' := by
  have hlength : l.length = l'.length := Option.some.inj ((strlen_eq h).symm.trans (strlen_eq h'))
  refine List.ext_getElem hlength fun i hi hi' => ?_
  have hbyte := h.holds.bytes i (by rw [List.length_append]; omega)
  have hbyte' := h'.holds.bytes i (by rw [List.length_append]; omega)
  rw [List.getElem_append_left hi] at hbyte
  rw [List.getElem_append_left hi'] at hbyte'
  rw [← hbyte, hbyte']

omit [DecidableEq β] in
theorem text_eq (h : m.IsString p l) : text m p = some (m.bytes p l.length) := by
  unfold text
  rw [strlen_eq h]
  rfl

omit [DecidableEq β] in
theorem strcmpLoop_some (h : m.IsString p l) (hq : q.offset + l.length < m.size q.block) (hfuel : l.length < fuel) :
    ∃ z, strcmpLoop m fuel p q = some z := by
  induction l generalizing p q fuel with
  | nil =>
    obtain ⟨fuel, rfl⟩ := Nat.exists_eq_succ_of_ne_zero (Nat.ne_of_gt (Nat.zero_lt_of_lt hfuel))
    have hload : m.load q = some (m.data q.block q.offset) := if_pos hq
    exact ⟨_, by rw [strcmpLoop, h.holds.load_zero, hload]; rfl⟩
  | cons c l ih =>
    rw [List.length_cons] at hq hfuel
    obtain ⟨fuel, rfl⟩ := Nat.exists_eq_succ_of_ne_zero (Nat.ne_of_gt (Nat.zero_lt_of_lt hfuel))
    have hload : m.load q = some (m.data q.block q.offset) := if_pos (by omega)
    rw [strcmpLoop, h.holds.load_zero, hload, Option.bind_some, Option.bind_some]
    split
    · exact ih h.tail (by dsimp; omega) (Nat.lt_of_succ_lt_succ hfuel)
    · exact ⟨_, rfl⟩

omit [DecidableEq β] in
/-- The comparison stays inside both strings when the second block is long enough for the first string. -/
theorem strcmp_some (h : m.IsString p l) (hq : q.offset + l.length < m.size q.block) : ∃ z, strcmp m p q = some z := by
  have hfits := h.holds.fits
  rw [List.length_append, List.length_singleton] at hfits
  exact strcmpLoop_some h hq (by omega)

theorem copyChars_eq (h : m.Holds src l) (hne : src.block ≠ dst.block) (hfits : dst.offset + l.length ≤ m.size dst.block) :
    copyChars l.length src dst m = some (m.put dst l) := by
  induction l generalizing m src dst with
  | nil => exact congrArg some Blocks.put_nil.symm
  | cons c l ih =>
    rw [List.length_cons] at hfits ⊢
    have hput : m.put dst (c :: l) = (m.put dst [c]).put (dst + 1) l := Blocks.put_append m dst [c] l
    rw [copyChars, h.load_zero, Option.bind_some, Blocks.store_eq (by omega), Option.bind_some, hput]
    exact ih (h.tail.put_other hne) hne (by dsimp; omega)

/-- A string that is copied to its own place. -/
theorem copyChars_self (h : m.Holds p l) : copyChars l.length p p m = some m := by
  induction l generalizing p with
  | nil => rfl
  | cons c l ih =>
    have hfits := h.fits
    have hsame : m.put p [c] = m := Blocks.Holds.put_eq ⟨by simp at hfits ⊢; omega, fun i hi => by
      have hi' : i = 0 := by simpa using hi
      subst hi'
      exact h.bytes 0 (Nat.succ_pos _)⟩
    rw [List.length_cons] at hfits ⊢
    rw [copyChars, h.load_zero, Option.bind_some, Blocks.store_eq (by omega), Option.bind_some, hsame]
    exact ih h.tail

/-- A string that is copied to the place behind it repeats its first character. -/
theorem copyChars_repeat (h : m.load p = some c) (hfits : p.offset + n < m.size p.block) :
    copyChars n p (p + 1) m = some (m.put (p + 1) (List.replicate n c)) := by
  induction n generalizing m p with
  | zero => exact congrArg some Blocks.put_nil.symm
  | succ n ih =>
    have hput : m.put (p + 1) (List.replicate (n + 1) c) = (m.put (p + 1) [c]).put (p + 1 + 1) (List.replicate n c) :=
      Blocks.put_append m (p + 1) [c] _
    have hholds : (m.put (p + 1) [c]).Holds (p + 1) [c] := Blocks.holds_put (by simp; omega)
    rw [copyChars, h, Option.bind_some, Blocks.store_eq (by dsimp; omega), Option.bind_some, hput]
    exact ih hholds.load_zero (by dsimp; omega)

/-- Three strings in different places. -/
theorem strcconcat_eq (h : m.IsString p l) (h' : m.IsString q l') (hp : p.block ≠ dst.block) (hq : q.block ≠ dst.block)
    (hfits : dst.offset + l.length + l'.length < m.size dst.block) :
    strcconcat m p q dst = some (m.put dst (l ++ l' ++ [0])) := by
  have hl : m.Holds p l := Blocks.Holds.left h.holds
  have hl' : (m.put dst l).Holds q l' := Blocks.Holds.left (h'.holds.put_other hq)
  have hcopy : copyChars l'.length q (dst + l.length) (m.put dst l) = some (m.put dst (l ++ l')) := by
    rw [Blocks.put_append]
    exact copyChars_eq hl' hq (by dsimp; omega)
  unfold strcconcat
  rw [strlen_eq h, Option.bind_some, strlen_eq h', Option.bind_some, copyChars_eq hl hp (by omega), Option.bind_some, hcopy,
    Option.bind_some, Ptr.add_add, ← List.length_append]
  exact Blocks.store_snoc (by rw [List.length_append]; omega)

/-- A string is added to the end of the first one. -/
theorem strcconcat_left (h : m.IsString p l) (h' : m.IsString q l') (hq : q.block ≠ p.block)
    (hfits : p.offset + l.length + l'.length < m.size p.block) :
    strcconcat m p q p = some (m.put p (l ++ l' ++ [0])) := by
  have hl : m.Holds p l := Blocks.Holds.left h.holds
  have hl' : m.Holds q l' := Blocks.Holds.left h'.holds
  have hcopy : copyChars l'.length q (p + l.length) m = some (m.put p (l ++ l')) := by
    rw [Blocks.put_append, hl.put_eq]
    exact copyChars_eq hl' hq (by dsimp; omega)
  unfold strcconcat
  rw [strlen_eq h, Option.bind_some, strlen_eq h', Option.bind_some, copyChars_self hl, Option.bind_some, hcopy,
    Option.bind_some, Ptr.add_add, ← List.length_append]
  exact Blocks.store_snoc (by rw [List.length_append]; omega)

/-- A character is put in front of a string that repeats it. -/
theorem strcconcat_repeat (h : m.IsString p [c]) (h' : m.IsString q (List.replicate n c)) (hp : p.block ≠ q.block)
    (hfits : q.offset + n + 1 < m.size q.block) :
    strcconcat m p q q = some (m.put q (List.replicate (n + 1) c ++ [0])) := by
  have hl : m.Holds p [c] := Blocks.Holds.left h.holds
  have hload : (m.put q [c]).load q = some c := (Blocks.holds_put (by simp; omega)).load_zero
  have hput : (m.put q [c]).put (q + 1) (List.replicate n c) = m.put q (List.replicate (n + 1) c) :=
    (Blocks.put_append m q [c] _).symm
  have hcopy : copyChars (List.replicate n c).length q (q + [c].length) (m.put q [c]) =
      some (m.put q (List.replicate (n + 1) c)) := by
    rw [List.length_replicate, ← hput]
    exact copyChars_repeat hload (by dsimp; omega)
  have hlength : [c].length + (List.replicate n c).length = (List.replicate (n + 1) c).length := by simp; omega
  unfold strcconcat
  rw [strlen_eq h, Option.bind_some, strlen_eq h', Option.bind_some, copyChars_eq hl hp (by simp; omega), Option.bind_some,
    hcopy, Option.bind_some, Ptr.add_add, hlength]
  exact Blocks.store_snoc (by rw [List.length_replicate]; omega)

end Fos.Str
