import Mathlib.Logic.Relation

/-! A value behind a write-back cache: it is in a line of the cache, in the copy behind it, or in both. -/

namespace Fos.Lib

/-- Where a value is: in the line, with whether this was modified, and in the copy. -/
structure Cell (V : Type) where
  line : Option (V × Bool)
  copy : Option V

namespace Cell

variable {V : Type} {x y : Cell V} {v w : V} {modified : Bool}

/-- What the cache does by itself. A line that is filled where there is no copy may have any value, and a line may be taken
    for modified that is not. -/
inductive Next : Cell V → Cell V → Prop
  | fill (v : V) : Next ⟨none, some v⟩ ⟨some (v, false), some v⟩
  | fillNew (v : V) : Next ⟨none, none⟩ ⟨some (v, false), none⟩
  | soil (v : V) (modified : Bool) (copy : Option V) : Next ⟨some (v, modified), copy⟩ ⟨some (v, true), copy⟩
  | drop (v : V) (copy : Option V) : Next ⟨some (v, false), copy⟩ ⟨none, copy⟩
  | writeBack (v : V) (copy : Option V) : Next ⟨some (v, true), copy⟩ ⟨none, some v⟩

def Steps : Cell V → Cell V → Prop := Relation.ReflTransGen Next

theorem Steps.of_eq (h : y = x) : Steps x y := h ▸ .refl

/-- The value is in the line, when there is one, and if the line is not modified the copy has it too. -/
structure Holds (x : Cell V) (v : V) : Prop where
  line : ∀ w modified, x.line = some (w, modified) → w = v
  copy : (∀ w, x.line ≠ some (w, true)) → x.copy = some v

theorem holds_modified (v : V) (copy : Option V) : Holds ⟨some (v, true), copy⟩ v := by
  refine ⟨fun w modified hw => ?_, fun hclean => absurd rfl (hclean v)⟩
  cases hw
  rfl

theorem Next.holds (h : Next x y) (hx : x.Holds v) : y.Holds v := by
  cases h with
  | fill u =>
    obtain rfl := Option.some.inj (hx.copy fun w hw => absurd hw.symm (Option.some_ne_none _))
    refine ⟨fun w modified hw => ?_, fun _ => rfl⟩
    cases hw
    rfl
  | fillNew u => exact absurd (hx.copy fun w hw => absurd hw.symm (Option.some_ne_none _)).symm (Option.some_ne_none v)
  | soil u modified copy =>
    obtain rfl := hx.line u modified rfl
    exact holds_modified u copy
  | drop u copy =>
    refine ⟨fun w modified hw => absurd hw.symm (Option.some_ne_none _), fun _ => hx.copy fun w hw => ?_⟩
    cases hw
  | writeBack u copy =>
    obtain rfl := hx.line u true rfl
    exact ⟨fun w modified hw => absurd hw.symm (Option.some_ne_none _), fun _ => rfl⟩

/-- A value that is not lost is not lost later. -/
theorem Steps.holds (h : Steps x y) (hx : x.Holds v) : y.Holds v := by
  induction h with
  | refl => exact hx
  | tail _ hnext ih => exact hnext.holds ih

end Cell

end Fos.Lib
