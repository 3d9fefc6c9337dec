import Mathlib.Data.Set.Card
import Mathlib.Logic.Function.Basic

/-! A partial map with a bound on the number of its keys: what it answers to requests, and what its answers keep. -/

namespace Fos.Lib

/-- The keys that have a value. -/
def mapKeys {K V : Type} (m : K → Option V) : Set K := {k | m k ≠ none}

inductive MapRequest (K V : Type) where
  /-- The key is to have the value. -/
  | put (k : K) (v : V)
  /-- The key is to have some value; one that it has stays. -/
  | reserve (k : K)
  | remove (k : K)
  /-- All keys with the property are removed. -/
  | drop (P : K → Prop)

variable {K V : Type} [DecidableEq K] {cap : Nat} {m m' : K → Option V} {req : MapRequest K V} {k : K} {ok : Bool}

/-- The answer to a request, and the map after it. At most `cap` keys have a value; when there is no room for another one
    the request is refused and nothing changes. -/
inductive MapNext (cap : Nat) (m : K → Option V) : MapRequest K V → Bool → (K → Option V) → Prop
  | put {k : K} {v : V} (room : m k ≠ none ∨ (mapKeys m).ncard < cap) :
      MapNext cap m (.put k v) true (Function.update m k (some v))
  | putFull {k : K} {v : V} (new : m k = none) (full : (mapKeys m).ncard = cap) : MapNext cap m (.put k v) false m
  | reserve {k : K} (v : V) (new : m k = none) (room : (mapKeys m).ncard < cap) :
      MapNext cap m (.reserve k) true (Function.update m k (some v))
  | reserveKept {k : K} (old : m k ≠ none) : MapNext cap m (.reserve k) true m
  | reserveFull {k : K} (new : m k = none) (full : (mapKeys m).ncard = cap) : MapNext cap m (.reserve k) false m
  | remove {k : K} : MapNext cap m (.remove k) true (Function.update m k none)
  | drop {P : K → Prop} [DecidablePred P] : MapNext cap m (.drop P) true fun k => if P k then none else m k

end Fos.Lib
