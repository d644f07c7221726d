import Phrasebook.Proofs.Retelling

/-!
# A place in a phrase

A **place** (`Phrasebook.Place`) is where a run of siblings can stand: what comes before it and
after it on its level, and around the level the fragments it is in, each among siblings of its
own. Every construct of a phrase stands at a place of its own (`Phrasebook.exists_fill_eq`).
Filling one place with two runs gives two phrases that differ there and nowhere else.

Nowhere else, that is, but for the numbering. If the second run has more nodes than the first,
all that follows in reading order is numbered later, at whatever depth it stands; the numbers
before stay. That is a recasting (`Phrasebook.Recasting.leavingRoom`), and under it all that
surrounds the place is retold. So what has to be compared is the one level with the place on it,
and one outline **amends** the other there (`Phrasebook.Place.amends`).
-/

namespace Phrasebook

/-! ### Nodes side by side -/

theorem sizeAll_append (ms ns : List Node) : sizeAll (ms ++ ns) = sizeAll ms + sizeAll ns := by
  induction ms with
  | nil => rw [List.nil_append, sizeAll, Nat.zero_add]
  | cons m ms ih => rw [List.cons_append, sizeAll, sizeAll, ih, Nat.add_assoc]

theorem fragmentCountAll_append (ms ns : List Node) :
    fragmentCountAll (ms ++ ns) = fragmentCountAll ms + fragmentCountAll ns := by
  induction ms with
  | nil => rw [List.nil_append, fragmentCountAll, Nat.zero_add]
  | cons m ms ih => rw [List.cons_append, fragmentCountAll, fragmentCountAll, ih, Nat.add_assoc]

theorem outlineAll_append (ms ns : List Node) (id ordinal : Nat) :
    outlineAll id ordinal (ms ++ ns) = outlineAll id ordinal ms ++
      outlineAll (id + sizeAll ms) (ordinal + fragmentCountAll ms) ns := by
  induction ms generalizing id ordinal with
  | nil => rfl
  | cons m ms ih =>
    rw [List.cons_append, outlineAll, outlineAll, ih, sizeAll, fragmentCountAll, Nat.add_assoc,
      Nat.add_assoc, List.cons_append]

theorem constructsAll_append (os ps : List Outline) :
    constructsAll (os ++ ps) = constructsAll os ++ constructsAll ps := by
  induction os with
  | nil => rfl
  | cons o os ih => rw [List.cons_append, constructsAll, constructsAll, ih, List.append_assoc]

theorem levelsAll_append (os ps : List Outline) :
    levelsAll (os ++ ps) = levelsAll os ++ levelsAll ps := by
  induction os with
  | nil => rfl
  | cons o os ih =>
    rw [List.cons_append, levelsAll, levelsAll, ih, List.append_assoc]

theorem length_outlineAll (ns : List Node) (id ordinal : Nat) :
    (outlineAll id ordinal ns).length = ns.length := by
  induction ns generalizing id ordinal with
  | nil => rfl
  | cons n ns ih => rw [outlineAll, List.length_cons, ih, List.length_cons]

/-- There are as many levels in some nodes as there are fragments. -/
theorem length_levelsAll_outlineAll (ns : List Node) (id ordinal : Nat) :
    (levelsAll (outlineAll id ordinal ns)).length = fragmentCountAll ns := by
  have hordinals := congrArg List.length (map_ordinal_outlineAll ns id ordinal)
  rw [List.length_map, List.length_range'] at hordinals
  rw [levelsAll_eq, List.length_map, hordinals]

/-! ### Places -/

/-- **A place among some nodes**, where a run of siblings can stand. -/
inductive Place where
  | here (before after : List Node)
  /-- A place inside a fragment. -/
  | inside (before : List Node) (location : Location) (place : Place) (after : List Node)

namespace Place

/-- What comes before a place on its level. -/
def before : Place → List Node
  | here before _ => before
  | inside _ _ place _ => place.before

/-- What comes after a place on its level. -/
def after : Place → List Node
  | here _ after => after
  | inside _ _ place _ => place.after

/-- **The nodes that a place is among**, with the place taken by `run`. -/
def fill (run : List Node) : Place → List Node
  | here before after => before ++ (run ++ after)
  | inside before location place after => before ++ .fragment (place.fill run) location :: after

/-- The number at which the level of a place begins. -/
def start : Place → Nat
  | here _ _ => 0
  | inside before _ place _ => sizeAll before + 1 + place.start

/-- How many levels come before that of a place; all of them but the first open with a
fragment. -/
def level : Place → Nat
  | here _ _ => 0
  | inside before _ place _ => fragmentCountAll before + 1 + place.level

/-- The number of the first node in a place. -/
def id (place : Place) : Nat :=
  place.start + sizeAll place.before

/-- How many fragments open before a place. -/
def ordinal (place : Place) : Nat :=
  place.level + fragmentCountAll place.before

/-- A place with one more node before all others. -/
def cons (n : Node) : Place → Place
  | here before after => here (n :: before) after
  | inside before location place after => inside (n :: before) location place after

theorem fill_cons (n : Node) (run : List Node) (place : Place) :
    (place.cons n).fill run = n :: place.fill run := by
  cases place <;> rfl

end Place

/-- **Every construct has its place**, at whatever depth it stands. -/
theorem exists_fill_eq {c : Construct} : ∀ ns : List Node, c ∈ constructsIn ns →
    ∃ place : Place, place.fill [.construct c] = ns
  | .construct d :: ns, h => by
    rcases List.mem_cons.mp h with rfl | h
    · exact ⟨.here [] ns, rfl⟩
    · obtain ⟨place, hplace⟩ := exists_fill_eq ns h
      exact ⟨place.cons _, by rw [place.fill_cons, hplace]⟩
  | .fragment children location :: ns, h => by
    rcases List.mem_append.mp h with h | h
    · obtain ⟨place, hplace⟩ := exists_fill_eq children h
      exact ⟨.inside [] location place ns, by rw [Place.fill, hplace, List.nil_append]⟩
    · obtain ⟨place, hplace⟩ := exists_fill_eq ns h
      exact ⟨place.cons _, by rw [place.fill_cons, hplace]⟩

/-- **A phrase with a place filled**: what surrounds the place, and `run` in it, are the nodes of
the phrase. -/
def Phrase.filled (p : Phrase) (place : Place) (run : List Node) : Phrase :=
  { p with children := place.fill run }

/-! ### Making room -/

/-- Leaves room for `count` numbers from `start` on. -/
def leaveRoom (start count i : Nat) : Nat :=
  if i < start then i else i + count

theorem leaveRoom_injective (start count : Nat) : Function.Injective (leaveRoom start count) := by
  intro i j h
  rw [leaveRoom, leaveRoom] at h
  split at h <;> split at h <;> omega

theorem leaveRoom_zero (start i : Nat) : leaveRoom start 0 i = i := by
  rw [leaveRoom, Nat.add_zero, ite_self]

namespace Recasting

/-- **The recasting that leaves room** for some nodes, and for some fragments among them, and
changes nothing else. -/
def leavingRoom (id nodes ordinal fragments : Nat) : Recasting where
  id := leaveRoom id nodes
  ordinal := leaveRoom ordinal fragments
  expr e := e
  location l := l
  id_injective := leaveRoom_injective id nodes

theorem carries_before {start count first n : Nat} (h : first + n ≤ start) :
    Carries (leaveRoom start count) first first n := fun j hj => by
  rw [leaveRoom, if_pos (by omega)]

theorem carries_after {start count first n : Nat} (h : start ≤ first) :
    Carries (leaveRoom start count) first (first + count) n := fun j _ => by
  rw [leaveRoom, if_neg (by omega)]
  omega

section LeavingRoom

variable {k nodes o fragments : Nat} (ns : List Node)
  {first second firstOrdinal secondOrdinal : Nat}

theorem mapAll_leavingRoom : mapAll (leavingRoom k nodes o fragments).expr
    (leavingRoom k nodes o fragments).location ns = ns :=
  mapAll_id ns

/-- What is numbered before the room that is left is retold as it is. -/
theorem retells_before (hfirst : first + sizeAll ns ≤ k)
    (hordinal : firstOrdinal + fragmentCountAll ns ≤ o) :
    (leavingRoom k nodes o fragments).Retells (outlineAll first firstOrdinal ns)
      (outlineAll first firstOrdinal ns) := by
  have h := retells_outlineAll (leavingRoom k nodes o fragments) ns (carries_before hfirst)
    (carries_before hordinal)
  rwa [mapAll_leavingRoom] at h

/-- What is numbered after the room that is left is retold with later numbers. -/
theorem retells_after (hfirst : k ≤ first) (hordinal : o ≤ firstOrdinal)
    (hsecond : second = first + nodes) (hordinal' : secondOrdinal = firstOrdinal + fragments) :
    (leavingRoom k nodes o fragments).Retells (outlineAll first firstOrdinal ns)
      (outlineAll second secondOrdinal ns) := by
  subst hsecond hordinal'
  have h := retells_outlineAll (leavingRoom k nodes o fragments) ns (carries_after hfirst)
    (carries_after hordinal)
  rwa [mapAll_leavingRoom] at h

end LeavingRoom

/-! ### Amending a level -/

/-- **One outline amends another** on its level number `k`: there `new` stands in place of
`old`, and all around the level is retold. -/
inductive Amends (r : Recasting) (old new : List Outline) :
    Nat → List Outline → List Outline → Prop
  | here : Amends r old new 0 old new
  | inside {before before' children children' after after' : List Outline} {k : Nat}
      (id ordinal : Nat) (location : Location) (hbefore : r.Retells before before')
      (h : Amends r old new k children children') (hafter : r.Retells after after') :
    Amends r old new ((levelsAll before).length + 1 + k)
      (before ++ .fragment id ordinal location children :: after)
      (before' ++ .fragment (r.id id) (r.ordinal ordinal) (r.location location) children' ::
        after')

/-- A retold level makes a retold outline. -/
theorem Amends.retells {r : Recasting} {old new os os' : List Outline} {k : Nat}
    (h : r.Amends old new k os os') (hlevel : r.Retells old new) : r.Retells os os' := by
  induction h with
  | here => exact hlevel
  | inside id ordinal location hbefore _ hafter ih =>
    exact hbefore.append (.fragment id ordinal location ih hafter)

end Recasting

/-! ### Filling a place in two ways -/

namespace Place

variable {run run' : List Node} {nodes fragments : Nat}

/-- The level of a place that `run` takes, if the nodes around are numbered from `first` and
`firstOrdinal` on. -/
def outline (place : Place) (run : List Node) (first firstOrdinal : Nat) : List Outline :=
  outlineAll (first + place.start) (firstOrdinal + place.level)
    (place.before ++ (run ++ place.after))

theorem sizeAll_fill (hsize : sizeAll run' = sizeAll run + nodes) (place : Place) :
    sizeAll (place.fill run') = sizeAll (place.fill run) + nodes := by
  induction place with
  | here before after =>
    simp only [fill, sizeAll_append]
    omega
  | inside before location place after ih =>
    simp only [fill, sizeAll_append, sizeAll, Node.size]
    omega

theorem fragmentCountAll_fill
    (hcount : fragmentCountAll run' = fragmentCountAll run + fragments) (place : Place) :
    fragmentCountAll (place.fill run') = fragmentCountAll (place.fill run) + fragments := by
  induction place with
  | here before after =>
    simp only [fill, fragmentCountAll_append]
    omega
  | inside before location place after ih =>
    simp only [fill, fragmentCountAll_append, fragmentCountAll, Node.fragmentCount]
    omega

theorem id_le_sizeAll_fill (run : List Node) (place : Place) :
    place.id ≤ sizeAll (place.fill run) := by
  induction place with
  | here before after =>
    simp only [Place.id, start, Place.before, fill, sizeAll_append]
    omega
  | inside before location place after ih =>
    simp only [Place.id, start, Place.before, fill, sizeAll_append, sizeAll, Node.size] at ih ⊢
    omega

theorem ordinal_le_fragmentCountAll_fill (run : List Node) (place : Place) :
    place.ordinal ≤ fragmentCountAll (place.fill run) := by
  induction place with
  | here before after =>
    simp only [Place.ordinal, level, Place.before, fill, fragmentCountAll_append]
    omega
  | inside before location place after ih =>
    simp only [Place.ordinal, level, Place.before, fill, fragmentCountAll_append, fragmentCountAll,
      Node.fragmentCount] at ih ⊢
    omega

theorem outline_inside (before after : List Node) (location : Location) (place : Place)
    (first firstOrdinal : Nat) :
    (inside before location place after).outline run first firstOrdinal =
      place.outline run (first + sizeAll before + 1)
        (firstOrdinal + fragmentCountAll before + 1) := by
  simp only [outline, start, level, Place.before, Place.after, Nat.add_assoc]

theorem outlineAll_fill_inside (before after : List Node) (location : Location) (place : Place)
    (first firstOrdinal : Nat) :
    outlineAll first firstOrdinal ((inside before location place after).fill run) =
      outlineAll first firstOrdinal before ++
        .fragment (first + sizeAll before) (firstOrdinal + fragmentCountAll before) location
          (outlineAll (first + sizeAll before + 1) (firstOrdinal + fragmentCountAll before + 1)
            (place.fill run)) ::
        outlineAll (first + sizeAll before + (sizeAll (place.fill run) + 1))
          (firstOrdinal + fragmentCountAll before + (fragmentCountAll (place.fill run) + 1))
          after := by
  rw [fill, outlineAll_append, outlineAll, Node.outline, Node.size, Node.fragmentCount]

/-- **What is filled in two ways differs on one level**: with room for what the second run has
more of, the rest of the outline is retold. -/
theorem amends (hsize : sizeAll run' = sizeAll run + nodes)
    (hcount : fragmentCountAll run' = fragmentCountAll run + fragments) (place : Place)
    (first firstOrdinal : Nat) {k o : Nat} (hk : k = first + place.id)
    (ho : o = firstOrdinal + place.ordinal) :
    (Recasting.leavingRoom k nodes o fragments).Amends
      (place.outline run first firstOrdinal) (place.outline run' first firstOrdinal) place.level
      (outlineAll first firstOrdinal (place.fill run))
      (outlineAll first firstOrdinal (place.fill run')) := by
  induction place generalizing first firstOrdinal with
  | here before after => exact .here
  | inside before location place after ih =>
    have hsize := sizeAll_fill hsize place
    have hcount := fragmentCountAll_fill hcount place
    have hid := id_le_sizeAll_fill run place
    have hordinal := ordinal_le_fragmentCountAll_fill run place
    simp only [Place.id, Place.ordinal, start, level, Place.before] at hid hordinal ih hk ho
    have hchildren := ih (first + sizeAll before + 1) (firstOrdinal + fragmentCountAll before + 1)
      (by omega) (by omega)
    -- the fragment and what comes before it are numbered before the place, the rest after it
    have hnumber : (Recasting.leavingRoom k nodes o fragments).id (first + sizeAll before) =
        first + sizeAll before := if_pos (by omega)
    have hcounted : (Recasting.leavingRoom k nodes o fragments).ordinal
        (firstOrdinal + fragmentCountAll before) = firstOrdinal + fragmentCountAll before :=
      if_pos (by omega)
    have hbefore : (Recasting.leavingRoom k nodes o fragments).Retells
        (outlineAll first firstOrdinal before) (outlineAll first firstOrdinal before) :=
      Recasting.retells_before before (by omega) (by omega)
    have hafter : (Recasting.leavingRoom k nodes o fragments).Retells
        (outlineAll (first + sizeAll before + (sizeAll (place.fill run) + 1))
          (firstOrdinal + fragmentCountAll before + (fragmentCountAll (place.fill run) + 1)) after)
        (outlineAll (first + sizeAll before + (sizeAll (place.fill run') + 1))
          (firstOrdinal + fragmentCountAll before + (fragmentCountAll (place.fill run') + 1))
          after) :=
      Recasting.retells_after after (by omega) (by omega) (by omega) (by omega)
    have hinside := Recasting.Amends.inside (first + sizeAll before)
      (firstOrdinal + fragmentCountAll before) location hbefore hchildren hafter
    rw [hnumber, hcounted, length_levelsAll_outlineAll] at hinside
    rw [outline_inside, outline_inside, outlineAll_fill_inside, outlineAll_fill_inside]
    exact hinside

/-- The level of a place, in three parts. -/
theorem outline_eq (place : Place) (run : List Node) (first firstOrdinal : Nat) :
    place.outline run first firstOrdinal =
      outlineAll (first + place.start) (firstOrdinal + place.level) place.before ++
        (outlineAll (first + place.id) (firstOrdinal + place.ordinal) run ++
          outlineAll (first + place.id + sizeAll run)
            (firstOrdinal + place.ordinal + fragmentCountAll run) place.after) := by
  rw [outline, outlineAll_append, outlineAll_append, Place.id, Place.ordinal, Nat.add_assoc first,
    Nat.add_assoc firstOrdinal]

end Place

/-- **Phrases that fill one place differently amend each other** on the level of the place,
between siblings that are retold. -/
theorem Phrase.exists_amends_filled (p : Phrase) (place : Place) (run run' : List Node)
    {nodes fragments : Nat} (hsize : sizeAll run' = sizeAll run + nodes)
    (hcount : fragmentCountAll run' = fragmentCountAll run + fragments) :
    ∃ before after after' : List Outline, before.length = place.before.length ∧
      (levelsAll before).length = fragmentCountAll place.before ∧
      (Recasting.leavingRoom place.id nodes place.ordinal fragments).Retells before before ∧
      (Recasting.leavingRoom place.id nodes place.ordinal fragments).Retells after after' ∧
      (Recasting.leavingRoom place.id nodes place.ordinal fragments).Amends
        (before ++ (outlineAll place.id place.ordinal run ++ after))
        (before ++ (outlineAll place.id place.ordinal run' ++ after')) place.level
        (p.filled place run).outline (p.filled place run').outline := by
  have hamends := place.amends hsize hcount 0 0 (Nat.zero_add _).symm (Nat.zero_add _).symm
  simp only [Place.outline_eq, Nat.zero_add] at hamends
  exact ⟨_, _, _, length_outlineAll _ _ _, length_levelsAll_outlineAll _ _ _,
    Recasting.retells_before _ (le_refl _) (le_refl _),
    Recasting.retells_after _ (Nat.le_add_right _ _) (Nat.le_add_right _ _)
      (by rw [hsize, Nat.add_assoc]) (by rw [hcount, Nat.add_assoc]), hamends⟩

end Phrasebook
