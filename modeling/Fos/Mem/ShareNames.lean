import Fos.Mem.ShareInv

/-! Names and ids of shared objects. An object is found under its name as long as the name ends where `strcmp` reads it: in the
    64 bytes of the field, or in the bytes of the size that follow them. -/

namespace Fos.Mem
open Lib Heap

namespace Share

/-- What `strcmp` reads of an object with this name and size: the name, and its end. -/
def Terminated (name : CString) (size : Nat) : Prop := ∃ rest, strncpy64 name ++ bytes32 size = name ++ 0 :: rest

theorem terminated_of_short {name : CString} (h : name.length < 64) (size : Nat) : Terminated name size := by
  obtain ⟨k, hk⟩ : ∃ k, 64 - name.length = k + 1 := ⟨63 - name.length, by omega⟩
  refine ⟨List.replicate k 0 ++ bytes32 size, ?_⟩
  unfold strncpy64
  rw [List.take_append, List.take_of_length_le h.le, List.take_replicate, Nat.min_eq_left (Nat.sub_le ..), hk,
    List.append_assoc, List.replicate_succ]
  rfl

theorem toInt32_bytes {size : Nat} (h : size < 4294967296) : (toInt32 size % 4294967296).toNat = size := by
  unfold toInt32
  split <;> omega

theorem nameString_of_terminated {shr : Share} {name : CString} {size : Nat} (hzero : 0 ∉ name) (hsize : size < 4294967296)
    (hends : Terminated name size) (hname : shr.name = strncpy64 name) (hshr : shr.size = toInt32 size) :
    shr.nameString = name := by
  obtain ⟨rest, hrest⟩ := hends
  unfold nameString
  rw [hname, hshr, toInt32_bytes hsize, hrest, List.append_assoc, List.append_assoc, List.takeWhile_append_of_pos]
  · simp
  · intro x hx
    have hne : x ≠ 0 := fun h => hzero (h ▸ hx)
    simpa using hne

/-- One reference more. -/
def counted (shr : Share) : Share := { shr with references := u32 (shr.references + 1) }

end Share

namespace Sharing

variable {E : Type} [DecidableEq E] {s t : Sharing E} {e : E} {ownerID : Int} {name : CString} {size va : Nat}
  {isWritable : UInt8} {res : ShareResult}

/-- `size_of_shared_object(ownerID, shareName)`; `none` is `E_SHARED_MEM_NOT_EXISTS`. -/
def sizeOfSharedObject (s : Sharing E) (ownerID : Int) (shareName : CString) : Option Int :=
  (s.findShare ownerID shareName).map Share.size

/-! ### The list -/

/-- The object that `create_shared_object` puts at the head of the list. -/
structure Listed (s t : Sharing E) (ownerID : Int) (name : CString) (size va : Nat) (shr : Share) : Prop where
  list : t.sharesList = shr :: s.sharesList
  absent : s.findShare ownerID name = none
  owner : shr.ownerID = ownerID
  name : shr.name = Share.strncpy64 name
  size : shr.size = toInt32 size
  id : shr.id = va % 2147483648

theorem allocShare_eq {r r' : PagingRun E} {shr : Share}
    (hs : allocShare r ownerID name size isWritable = some (r', some shr)) :
    shr = { ownerID := ownerID, name := Share.strncpy64 name, size := toInt32 size, isWritable := isWritable } := by
  obtain ⟨⟨r₁, ptr⟩, -, hs⟩ := Option.bind_eq_some_iff.mp hs
  obtain ⟨-, hs⟩ := Option.ite_none_left_eq_some.mp hs
  obtain ⟨⟨r₂, framesStorage⟩, -, hs⟩ := Option.bind_eq_some_iff.mp hs
  dsimp only at hs
  by_cases hnull : framesStorage = 0
  · rw [if_pos hnull] at hs
    obtain ⟨r₃, -, heq⟩ := Option.map_eq_some_iff.mp hs
    exact nomatch (Prod.ext_iff.mp heq).2
  · rw [if_neg hnull] at hs
    cases hs
    rfl

/-- `create_shared_object` leaves the list as it is, or makes an object. -/
theorem createSharedObject_list (hs : s.createSharedObject e ownerID name size isWritable va = some (t, res)) :
    t.sharesList = s.sharesList ∧ (res = .exists ∨ res = .noShare) ∨
      ∃ shr, Listed s t ownerID name size va shr ∧ res = .id shr.id := by
  unfold createSharedObject at hs
  split at hs
  · cases hs
    exact .inl ⟨rfl, .inl rfl⟩
  · rename_i hfind
    obtain ⟨⟨r, o⟩, halloc, hs⟩ := Option.bind_eq_some_iff.mp hs
    cases o with
    | none =>
      cases hs
      exact .inl ⟨rfl, .inr rfl⟩
    | some shr =>
      obtain rfl := allocShare_eq halloc
      obtain ⟨⟨r', frames⟩, -, heq⟩ := Option.map_eq_some_iff.mp hs
      cases heq
      exact .inr ⟨_, ⟨rfl, hfind, rfl, rfl, rfl, rfl⟩, rfl⟩

/-- The loop of `get_shared_object` counts the first object that matches. -/
theorem takeReference_eq (l : List Share) {i : Nat} {shr : Share} (hfirst : l.findIdx? (Share.Matches ownerID name) = some i)
    (hi : l[i]? = some shr) : takeReference ownerID name l = some (shr.counted, l.set i shr.counted) := by
  induction l generalizing i with
  | nil => exact nomatch hfirst
  | cons x l ih =>
    rw [List.findIdx?_cons] at hfirst
    unfold takeReference
    split
    case isTrue hmatch =>
      rw [if_pos hmatch] at hfirst
      cases hfirst
      cases hi
      rfl
    case isFalse hmatch =>
      rw [if_neg hmatch] at hfirst
      obtain ⟨j, hj, rfl⟩ := Option.map_eq_some_iff.mp hfirst
      rw [ih hj hi]
      rfl

omit [DecidableEq E] in
theorem getSharedObject_none (hfind : s.sharesList.findIdx? (Share.Matches ownerID name) = none) :
    takeReference ownerID name s.sharesList = none := by
  cases htake : takeReference ownerID name s.sharesList with
  | none => rfl
  | some r =>
    obtain ⟨shr, l'⟩ := r
    obtain ⟨pre, shr₀, post, hlist, -, howner, hname, -⟩ := takeReference_eq_some htake
    refine absurd (decide_eq_true ⟨howner, hname⟩) (List.findIdx?_eq_none_iff.mp hfind shr₀ ?_ ▸ Bool.false_ne_true)
    rw [hlist]
    exact List.mem_append_right _ (List.mem_cons_self ..)

/-- `get_shared_object` counts the reference in the object that it finds. -/
theorem getSharedObject_list (hs : s.getSharedObject e ownerID name va = some (t, res)) :
    (t.sharesList = s.sharesList ∧ s.sharesList.findIdx? (Share.Matches ownerID name) = none) ∨
      ∃ i shr, s.sharesList.findIdx? (Share.Matches ownerID name) = some i ∧ s.sharesList[i]? = some shr ∧ res = .id shr.id ∧
        t.sharesList = s.sharesList.set i shr.counted := by
  unfold getSharedObject at hs
  cases hfind : s.sharesList.findIdx? (Share.Matches ownerID name) with
  | none =>
    rw [getSharedObject_none hfind] at hs
    cases hs
    exact .inl ⟨rfl, rfl⟩
  | some i =>
    obtain ⟨hlt, -⟩ := List.findIdx?_eq_some_iff_getElem.mp hfind
    have hshr := List.getElem?_eq_getElem hlt
    rw [takeReference_eq _ hfind hshr] at hs
    obtain ⟨-, hs⟩ := Option.ite_none_right_eq_some.mp hs
    obtain ⟨r, -, heq⟩ := Option.map_eq_some_iff.mp hs
    cases heq
    exact .inr ⟨i, _, rfl, hshr, rfl, rfl⟩

end Sharing

/-! ### Runs -/

/-- The arguments of a call that made an object. -/
structure Creation where
  ownerID : Int
  name : CString
  size : Nat
  va : Nat
  deriving DecidableEq, Repr

/-- The name ends within the field or in the bytes of the size. -/
def Creation.Ends (c : Creation) : Prop := 0 ∉ c.name ∧ c.size < 4294967296 ∧ Share.Terminated c.name c.size

/-- The objects, and the calls that made them, the last one first as in the list. -/
structure NameRun (E : Type) where
  sharing : Sharing E
  created : List Creation := []

namespace NameRun

variable {E : Type} [DecidableEq E] {s₀ s t : NameRun E} {ev : ShareEvent E} {i : Nat} {c : Creation}

def record (s : NameRun E) (c : Creation) (r : Sharing E × ShareResult) : NameRun E :=
  { sharing := r.1
    created := match r.2 with
      | .id _ => c :: s.created
      | _ => s.created }

def step (s : NameRun E) : ShareEvent E → Option (NameRun E)
  | .allocateUserMem e va size =>
    (s.sharing.mem.allocateUserMem e va size).map fun m => { s with sharing := { s.sharing with mem := m } }
  | .createSharedObject e ownerID name size isWritable va =>
    (s.sharing.createSharedObject e ownerID name size isWritable va).map (s.record ⟨ownerID, name, size, va⟩)
  | .getSharedObject e ownerID name va => (s.sharing.getSharedObject e ownerID name va).map fun r => { s with sharing := r.1 }
  | .freeUserMem e va size => (s.sharing.freeUserMem e va size).map fun t => { s with sharing := t }

/-- No object has been made yet. -/
def start (m : UserMem E) : NameRun E := { sharing := { mem := m } }

/-- What a step does to the objects: none, one more, or one more reference. -/
inductive ListStep (s t : NameRun E) : ShareEvent E → Prop
  | same {ev : ShareEvent E} : t.sharing.sharesList = s.sharing.sharesList → t.created = s.created → ListStep s t ev
  | create {e : E} {ownerID : Int} {name : CString} {size : Nat} {isWritable : UInt8} {va : Nat} (shr : Share) :
    Sharing.Listed s.sharing t.sharing ownerID name size va shr → t.created = ⟨ownerID, name, size, va⟩ :: s.created →
      ListStep s t (.createSharedObject e ownerID name size isWritable va)
  | count {e : E} {ownerID : Int} {name : CString} {va : Nat} (i : Nat) (shr : Share) : s.sharing.sharesList[i]? = some shr →
      t.sharing.sharesList = s.sharing.sharesList.set i shr.counted → t.created = s.created →
      ListStep s t (.getSharedObject e ownerID name va)

theorem listStep (hs : s.step ev = some t) : ListStep s t ev := by
  cases ev with
  | allocateUserMem e va size =>
    obtain ⟨m, -, rfl⟩ := Option.map_eq_some_iff.mp hs
    exact .same rfl rfl
  | freeUserMem e va size =>
    obtain ⟨u, hu, rfl⟩ := Option.map_eq_some_iff.mp hs
    obtain ⟨m, -, rfl⟩ := Option.map_eq_some_iff.mp hu
    exact .same rfl rfl
  | createSharedObject e ownerID name size isWritable va =>
    obtain ⟨⟨u, res⟩, hu, rfl⟩ := Option.map_eq_some_iff.mp hs
    rcases Sharing.createSharedObject_list hu with ⟨hlist, rfl | rfl⟩ | ⟨shr, hlisted, rfl⟩
    · exact .same hlist rfl
    · exact .same hlist rfl
    · exact .create shr hlisted rfl
  | getSharedObject e ownerID name va =>
    obtain ⟨⟨u, res⟩, hu, rfl⟩ := Option.map_eq_some_iff.mp hs
    rcases Sharing.getSharedObject_list hu with ⟨hlist, -⟩ | ⟨i, shr, -, hshr, -, hlist⟩
    · exact .same hlist rfl
    · exact .count i shr hshr hlist rfl

/-! ### Names -/

/-- Objects are made under names that end there. -/
def NameEnds : ShareEvent E → Prop
  | .createSharedObject _ ownerID name size _ va => Creation.Ends ⟨ownerID, name, size, va⟩
  | _ => True

/-- The object is what the call made, but for its references. -/
structure Describes (c : Creation) (shr : Share) : Prop where
  owner : shr.ownerID = c.ownerID
  name : shr.name = Share.strncpy64 c.name
  size : shr.size = toInt32 c.size
  id : shr.id = c.va % 2147483648

theorem Describes.counted {shr : Share} (h : Describes c shr) : Describes c shr.counted := ⟨h.owner, h.name, h.size, h.id⟩

theorem Describes.matches_iff {shr : Share} {ownerID : Int} {name : CString} (h : Describes c shr) (hends : c.Ends) :
    Share.Matches ownerID name shr = true ↔ c.ownerID = ownerID ∧ c.name = name := by
  obtain ⟨hzero, hsize, hends⟩ := hends
  unfold Share.Matches
  rw [decide_eq_true_eq, h.owner, Share.nameString_of_terminated hzero hsize hends h.name h.size]

/-- Every object is what the call at its place made, and no two calls have the same owner and name. -/
structure Named (s : NameRun E) : Prop where
  described : List.Forall₂ Describes s.created s.sharing.sharesList
  ends : ∀ c ∈ s.created, c.Ends
  apart : (s.created.map fun c => (c.ownerID, c.name)).Nodup

omit [DecidableEq E] in
theorem Named.describes (h : s.Named) {shr : Share} (hc : s.created[i]? = some c) (hshr : s.sharing.sharesList[i]? = some shr) :
    Describes c shr := by
  obtain ⟨hi, rfl⟩ := List.getElem?_eq_some_iff.mp hc
  obtain ⟨hi', rfl⟩ := List.getElem?_eq_some_iff.mp hshr
  exact h.described.get hi hi'

omit [DecidableEq E] in
/-- The object that a lookup finds was made under that name. -/
theorem Named.of_found (h : s.Named) {ownerID : Int} {name : CString}
    (hfound : s.sharing.sharesList.findIdx? (Share.Matches ownerID name) = some i) :
    ∃ c, s.created[i]? = some c ∧ c.ownerID = ownerID ∧ c.name = name := by
  obtain ⟨hlt, hmatch, -⟩ := List.findIdx?_eq_some_iff_getElem.mp hfound
  have hlt' : i < s.created.length := h.described.length_eq ▸ hlt
  have hdescribes := h.describes (List.getElem?_eq_getElem hlt') (List.getElem?_eq_getElem hlt)
  exact ⟨_, List.getElem?_eq_getElem hlt', (hdescribes.matches_iff (h.ends _ (List.getElem_mem hlt'))).mp hmatch⟩

omit [DecidableEq E] in
/-- A lookup finds the object that was made under that name. -/
theorem Named.found (h : s.Named) (hc : s.created[i]? = some c) :
    s.sharing.sharesList.findIdx? (Share.Matches c.ownerID c.name) = some i := by
  obtain ⟨hlt, rfl⟩ := List.getElem?_eq_some_iff.mp hc
  have hlt' : i < s.sharing.sharesList.length := h.described.length_eq ▸ hlt
  have hends := fun j (hj : j < s.created.length) => h.ends _ (List.getElem_mem hj)
  refine List.findIdx?_eq_some_iff_getElem.mpr ⟨hlt', ?_, fun j hji => ?_⟩
  · exact ((h.describes hc (List.getElem?_eq_getElem hlt')).matches_iff (hends i hlt)).mpr ⟨rfl, rfl⟩
  · have hj : j < s.created.length := hji.trans hlt
    have hdescribes := h.describes (List.getElem?_eq_getElem hj) (List.getElem?_eq_getElem (hji.trans hlt'))
    intro hmatch
    obtain ⟨howner, hname⟩ := (hdescribes.matches_iff (hends j hj)).mp hmatch
    have hnames : (s.created.map fun c => (c.ownerID, c.name))[j]? = (s.created.map fun c => (c.ownerID, c.name))[i]? := by
      simp [hj, hlt, howner, hname]
    exact hji.ne ((List.getElem?_inj (by simpa using hj) h.apart).mp hnames)

theorem forall₂_set {α β : Type} {R : α → β → Prop} {l : List α} {l' : List β} {x y : β} (h : List.Forall₂ R l l')
    (hx : l'[i]? = some x) (hy : ∀ a, R a x → R a y) : List.Forall₂ R l (l'.set i y) := by
  induction h generalizing i with
  | nil => exact .nil
  | cons hab _ ih =>
    cases i with
    | zero =>
      cases hx
      exact .cons (hy _ hab) ‹_›
    | succ i => exact .cons hab (ih hx)

omit [DecidableEq E] in
theorem Named.start (m : UserMem E) : (start m).Named := ⟨.nil, nofun, .nil⟩

/-- One step of a run. -/
theorem Named.step (h : s.Named) (hok : NameEnds ev) (hs : s.step ev = some t) : t.Named := by
  cases listStep hs with
  | same hlist hcreated =>
    refine ⟨?_, ?_, ?_⟩
    · rw [hlist, hcreated]
      exact h.described
    · rw [hcreated]
      exact h.ends
    · rw [hcreated]
      exact h.apart
  | create shr hlisted hcreated =>
    refine ⟨?_, ?_, ?_⟩
    · rw [hlisted.list, hcreated]
      exact .cons ⟨hlisted.owner, hlisted.name, hlisted.size, hlisted.id⟩ h.described
    · rw [hcreated]
      exact List.forall_mem_cons.mpr ⟨hok, h.ends⟩
    · rw [hcreated, List.map_cons, List.nodup_cons]
      refine ⟨fun hmem => ?_, h.apart⟩
      obtain ⟨c, hc, heq⟩ := List.mem_map.mp hmem
      obtain ⟨j, hj⟩ := List.getElem?_of_mem hc
      obtain ⟨howner, hname⟩ := Prod.mk.inj heq
      -- The lookup at the beginning would have found the older object.
      obtain ⟨hlt, hmatch, -⟩ := List.findIdx?_eq_some_iff_getElem.mp (h.found hj)
      rw [howner, hname] at hmatch
      exact List.find?_eq_none.mp hlisted.absent _ (List.getElem_mem hlt) hmatch
  | count j shr hshr hlist hcreated =>
    refine ⟨?_, ?_, ?_⟩
    · rw [hlist, hcreated]
      exact forall₂_set h.described hshr fun _ => Describes.counted
    · rw [hcreated]
      exact h.ends
    · rw [hcreated]
      exact h.apart

/-- The lookups under the owner and the name of the call `c` find the object `i`, which it made, and no other lookup does. -/
structure Found (s : NameRun E) (i : Nat) (c : Creation) (shr : Share) : Prop where
  object : s.sharing.sharesList[i]? = some shr
  found : s.sharing.sharesList.findIdx? (Share.Matches c.ownerID c.name) = some i
  others : ∀ ownerID name, s.sharing.sharesList.findIdx? (Share.Matches ownerID name) = some i → c.ownerID = ownerID ∧ c.name = name
  refused : ∀ e size isWritable va,
    s.sharing.createSharedObject e c.ownerID c.name size isWritable va = some (s.sharing, .exists)
  size : s.sharing.sizeOfSharedObject c.ownerID c.name = some (toInt32 c.size)
  got : ∀ e va t res, s.sharing.getSharedObject e c.ownerID c.name va = some (t, res) →
    res = .id shr.id ∧ t.sharesList = s.sharing.sharesList.set i shr.counted

theorem Named.lookup (h : s.Named) (hc : s.created[i]? = some c) : ∃ shr, s.Found i c shr := by
  have hfound := h.found hc
  obtain ⟨hlt, hmatch, hfirst⟩ := List.findIdx?_eq_some_iff_getElem.mp hfound
  have hobject := List.getElem?_eq_getElem hlt
  have hfind : s.sharing.findShare c.ownerID c.name = some s.sharing.sharesList[i] :=
    List.find?_eq_some_iff_getElem.mpr ⟨hmatch, i, hlt, rfl, fun j hj => by simpa using hfirst j hj⟩
  refine ⟨_, hobject, hfound, fun ownerID name hother => ?_, fun e size isWritable va => ?_, ?_, fun e va t res hs => ?_⟩
  · obtain ⟨d, hd, howner, hname⟩ := h.of_found hother
    cases hc.symm.trans hd
    exact ⟨howner, hname⟩
  · unfold Sharing.createSharedObject
    rw [hfind]
  · unfold Sharing.sizeOfSharedObject
    rw [hfind, Option.map_some, (h.describes hc hobject).size]
  · rcases Sharing.getSharedObject_list hs with ⟨-, hnone⟩ | ⟨j, shr, hj, hshr, hres, hlist⟩
    · exact nomatch hnone.symm.trans hfound
    · cases hj.symm.trans hfound
      cases hshr.symm.trans hobject
      exact ⟨hres, hlist⟩

/-- In every run in which objects are made only under names that end in time, every object is found under its owner and name, and
    under no others. -/
theorem share_naming {m : UserMem E} (hr : Reach step (fun _ ev => NameEnds ev) (start m) s) (hc : s.created[i]? = some c) :
    ∃ shr, s.Found i c shr := by
  have hnamed : s.Named := hr.invariant (I := Named) (.start m) fun _ _ _ h hok hs => h.step hok hs
  exact hnamed.lookup hc

/-- An object is made under the name `xy`. -/
theorem share_naming_short : ∃ (m : UserMem Unit) (s : NameRun Unit) (shr : Share),
    exec step (start m) [.createSharedObject () 9 [120, 121] 5000 1 2147483648] = some s ∧
      s.created = [⟨9, [120, 121], 5000, 2147483648⟩] ∧ s.Found 0 ⟨9, [120, 121], 5000, 2147483648⟩ shr := by
  have hrun : ((PagingRun.afterBoot Unit 1024 768).bind fun r₀ =>
      (step (start { run := r₀, disk := {} }) (.createSharedObject () 9 [120, 121] 5000 1 2147483648)).map fun s => s.created) =
        some [⟨9, [120, 121], 5000, 2147483648⟩] := by
    rw [PagingRun.afterBoot_eq]
    decide +kernel
  obtain ⟨r₀, hboot, hrun⟩ := Option.bind_eq_some_iff.mp hrun
  obtain ⟨s, hs, hcreated⟩ := Option.map_eq_some_iff.mp hrun
  have hends : NameEnds (.createSharedObject () 9 [120, 121] 5000 1 2147483648) :=
    ⟨by decide, by decide, Share.terminated_of_short (by decide) 5000⟩
  obtain ⟨shr, hfound⟩ := share_naming (.step _ .init hends hs) (i := 0) (c := ⟨9, [120, 121], 5000, 2147483648⟩) (by rw [hcreated]; rfl)
  exact ⟨_, s, shr, exec_cons.mpr ⟨s, hs, rfl⟩, hcreated, hfound⟩

/-- The name fills the field, and `strcmp` goes on in the size: the object is made again under the same owner and name. -/
theorem share_name_unterminated : ∃ (m : UserMem Unit) (s t : NameRun Unit) (u : Sharing Unit),
    step (start m) (.createSharedObject () 9 (List.replicate 64 120) 5000 1 2147483648) = some s ∧
      s.created = [⟨9, List.replicate 64 120, 5000, 2147483648⟩] ∧
      s.sharing.sizeOfSharedObject 9 (List.replicate 64 120) = none ∧
      s.sharing.createSharedObject () 9 (List.replicate 64 120) 5000 1 2147491840 = some (u, .id 8192) ∧
      step s (.createSharedObject () 9 (List.replicate 64 120) 5000 1 2147491840) = some t ∧
      ∀ shr, ¬ s.Found 0 ⟨9, List.replicate 64 120, 5000, 2147483648⟩ shr := by
  have hrun : ((PagingRun.afterBoot Unit 1024 768).bind fun r₀ =>
      (step (start { run := r₀, disk := {} }) (.createSharedObject () 9 (List.replicate 64 120) 5000 1 2147483648)).bind fun s =>
      (s.sharing.createSharedObject () 9 (List.replicate 64 120) 5000 1 2147491840).map fun (_, res) =>
        (s.created, s.sharing.sizeOfSharedObject 9 (List.replicate 64 120), res)) =
          some ([⟨9, List.replicate 64 120, 5000, 2147483648⟩], none, .id 8192) := by
    rw [PagingRun.afterBoot_eq]
    decide +kernel
  obtain ⟨r₀, hboot, hrun⟩ := Option.bind_eq_some_iff.mp hrun
  obtain ⟨s, hs, hrun⟩ := Option.bind_eq_some_iff.mp hrun
  obtain ⟨⟨u, res⟩, hu, hresult⟩ := Option.map_eq_some_iff.mp hrun
  obtain ⟨hcreated, hrest⟩ := Prod.mk.inj hresult
  obtain ⟨hsize, rfl⟩ := Prod.mk.inj hrest
  refine ⟨_, s, _, u, hs, hcreated, hsize, hu, Option.map_eq_some_iff.mpr ⟨_, hu, rfl⟩, fun shr hfound => ?_⟩
  exact nomatch hsize.symm.trans hfound.size

/-! ### Ids -/

/-- No object was made at an address with the same low 31 bits. -/
def FreshId (s : NameRun E) : ShareEvent E → Prop
  | .createSharedObject _ _ _ _ _ va => ∀ shr ∈ s.sharing.sharesList, shr.id ≠ va % 2147483648
  | _ => True

/-- The ids of the objects differ. -/
def IdsDiffer (s : NameRun E) : Prop := (s.sharing.sharesList.map Share.id).Nodup

theorem IdsDiffer.step (h : s.IdsDiffer) (hok : s.FreshId ev) (hs : s.step ev = some t) : t.IdsDiffer := by
  unfold IdsDiffer
  cases listStep hs with
  | same hlist _ =>
    rw [hlist]
    exact h
  | create shr hlisted _ =>
    rw [hlisted.list, List.map_cons, List.nodup_cons]
    refine ⟨fun hmem => ?_, h⟩
    obtain ⟨other, hother, heq⟩ := List.mem_map.mp hmem
    exact hok other hother (heq.trans hlisted.id)
  | count j shr hshr hlist _ =>
    obtain ⟨hj, rfl⟩ := List.getElem?_eq_some_iff.mp hshr
    have hids : (s.sharing.sharesList.set j s.sharing.sharesList[j].counted).map Share.id = s.sharing.sharesList.map Share.id := by
      rw [List.map_set]
      have hset : ∀ l : List Nat, ∀ hl : j < l.length, l.set j (l.get ⟨j, hl⟩) = l := fun _ hl => List.set_getElem_self hl
      have hj' : j < (s.sharing.sharesList.map Share.id).length := by simpa using hj
      rw [← hset _ hj']
      simp [Share.counted]
    rw [hlist, hids]
    exact h

/-- In every run in which no object is made at an address that is the id of another one, the ids differ. -/
theorem share_ids_differ {m : UserMem E} (hr : Reach step FreshId (start m) s) : s.IdsDiffer :=
  hr.invariant (I := IdsDiffer) List.nodup_nil fun _ _ _ h hok hs => h.step hok hs

/-- Two processes make an object, at different addresses. -/
theorem share_ids_differ_two : ∃ (m : UserMem Bool) (s : NameRun Bool),
    exec step (start m) [.createSharedObject false 8 [120] 4096 1 2147483648, .createSharedObject true 9 [121] 4096 1 2147487744] =
      some s ∧ s.sharing.sharesList.map Share.id = [4096, 0] ∧ s.IdsDiffer := by
  have hrun : ((PagingRun.afterBoot Bool 1024 768).bind fun r₀ =>
      (step (start { run := r₀, disk := {} }) (.createSharedObject false 8 [120] 4096 1 2147483648)).bind fun s₁ =>
      (step s₁ (.createSharedObject true 9 [121] 4096 1 2147487744)).map fun s =>
        (s₁.sharing.sharesList.map Share.id, s.sharing.sharesList.map Share.id)) = some ([0], [4096, 0]) := by
    rw [PagingRun.afterBoot_eq]
    decide +kernel
  obtain ⟨r₀, hboot, hrun⟩ := Option.bind_eq_some_iff.mp hrun
  obtain ⟨s₁, hs₁, hrun⟩ := Option.bind_eq_some_iff.mp hrun
  obtain ⟨s, hs, hresult⟩ := Option.map_eq_some_iff.mp hrun
  obtain ⟨hids₁, hids⟩ := Prod.mk.inj hresult
  have hfresh : s₁.FreshId (.createSharedObject true 9 [121] 4096 1 2147487744) := by
    intro shr hshr heq
    have hmem := List.mem_map_of_mem (f := Share.id) hshr
    rw [hids₁, heq] at hmem
    exact absurd hmem (by decide)
  have hfirst : (start ({ run := r₀, disk := {} } : UserMem Bool)).FreshId (.createSharedObject false 8 [120] 4096 1 2147483648) := by
    intro shr hshr
    exact absurd hshr List.not_mem_nil
  exact ⟨_, s, exec_cons.mpr ⟨s₁, hs₁, exec_cons.mpr ⟨s, hs, rfl⟩⟩, hids,
    share_ids_differ (.step _ (.step _ .init hfirst hs₁) hfresh hs)⟩

/-- Two processes make an object at the same address, each in its own heap. -/
theorem share_ids_equal : ∃ (m : UserMem Bool) (s : NameRun Bool),
    exec step (start m) [.createSharedObject false 8 [120] 4096 1 2147483648, .createSharedObject true 9 [121] 4096 1 2147483648] =
      some s ∧ s.sharing.sharesList.map Share.ownerID = [9, 8] ∧ ¬ s.IdsDiffer := by
  have hrun : ((PagingRun.afterBoot Bool 1024 768).bind fun r₀ => (exec step (start { run := r₀, disk := {} })
      [.createSharedObject false 8 [120] 4096 1 2147483648, .createSharedObject true 9 [121] 4096 1 2147483648]).map fun s =>
        (s.sharing.sharesList.map Share.ownerID, s.sharing.sharesList.map Share.id)) = some ([9, 8], [0, 0]) := by
    rw [PagingRun.afterBoot_eq]
    decide +kernel
  obtain ⟨r₀, hboot, hrun⟩ := Option.bind_eq_some_iff.mp hrun
  obtain ⟨s, hs, hresult⟩ := Option.map_eq_some_iff.mp hrun
  obtain ⟨howners, hids⟩ := Prod.mk.inj hresult
  refine ⟨_, s, hs, howners, fun h => ?_⟩
  unfold IdsDiffer at h
  rw [hids] at h
  exact absurd h (by decide)

end NameRun

end Fos.Mem
