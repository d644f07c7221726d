import Phrasebook.Proofs.Meaning

/-!
# The tokens of fragments

Nobody names a fragment. On the level around it a fragment is known by a token made of its
words, an equals sign and what the nodes in it are named (`Phrasebook.LevelTokens`), so that which
tokens the fragments of a level have is a matter of what these nodes mean under a signature.

When a phrase is checked, the tokens of a level are found by rendering its outline
(`Phrasebook.fragmentTokens`). Rendering is the meaning, so these are the same tokens
(`Phrasebook.Phrase.levelTokens_iff`): each level of the nodes has its tokens under every
signature, and they are those of the level of the outline that it is numbered to.
-/

namespace Phrasebook

/-- **The tokens of the fragments that stand on a level**, in order, if its first node is number
`id` of its phrase. -/
inductive LevelTokens (s : Signature) (axes : List Axis) : Nat → List Node → List TokenName → Prop
  | nil (id : Nat) : LevelTokens s axes id [] []
  | construct {id : Nat} (c : Construct) {ns : List Node} {tokens : List TokenName}
    (hrest : LevelTokens s axes (id + 1) ns tokens) :
    LevelTokens s axes id (.construct c :: ns) tokens
  | fragment {id : Nat} {children ns : List Node} {words : String} {tokens : List TokenName}
    (h : Means s axes .tokenName (id + 1) children words) (location : Location)
    (hrest : LevelTokens s axes (id + (sizeAll children + 1)) ns tokens) :
    LevelTokens s axes id (.fragment children location :: ns) (⟨"=" ++ words⟩ :: tokens)

/-! ### The tokens of a level of an outline -/

/-- The tokens of the fragments of a level under an assignment. -/
def fragmentTokens (values : Assignment) (level : List Outline) : List TokenName :=
  level.filterMap fun
    | .construct _ _ => none
    | .fragment _ _ _ children => some (implicitToken values children)

@[simp] theorem fragmentTokens_nil (values : Assignment) : fragmentTokens values [] = [] := rfl

@[simp] theorem fragmentTokens_construct (values : Assignment) (id : Nat) (c : Construct)
    (level : List Outline) :
    fragmentTokens values (.construct id c :: level) = fragmentTokens values level := rfl

@[simp] theorem fragmentTokens_fragment (values : Assignment) (id ordinal : Nat)
    (location : Location) (children level : List Outline) :
    fragmentTokens values (.fragment id ordinal location children :: level) =
      implicitToken values children :: fragmentTokens values level := rfl

theorem fragmentTokens_append (values : Assignment) (before after : List Outline) :
    fragmentTokens values (before ++ after) =
      fragmentTokens values before ++ fragmentTokens values after :=
  List.filterMap_append

/-! ### The two are the same -/

section Tokens

variable {rules : Option PluralRules} {p : Phrase} {s : Signature}

/-- The token of a fragment is made of what the nodes in it are named. -/
theorem Means.implicitToken_eq {id ordinal : Nat} {children : List Node} {words : String}
    (h : Means s (p.axes rules) .tokenName id children words)
    (hin : ∀ q ∈ constructsAll (outlineAll id ordinal children), q ∈ p.placed) :
    implicitToken (s.valueFor (p.axes rules)) (outlineAll id ordinal children) =
      ⟨"=" ++ words⟩ := by
  rw [implicitToken, h.renderAll_eq hin]
  rfl

/-- The tokens of a level are found by rendering. -/
theorem LevelTokens.fragmentTokens_eq {id : Nat} {ns : List Node} {tokens : List TokenName}
    (h : LevelTokens s (p.axes rules) id ns tokens) : ∀ {ordinal : Nat},
    (∀ q ∈ constructsAll (outlineAll id ordinal ns), q ∈ p.placed) →
      fragmentTokens (s.valueFor (p.axes rules)) (outlineAll id ordinal ns) = tokens := by
  induction h with
  | nil => exact fun _ => rfl
  | construct c hrest ih =>
    intro ordinal hin
    exact ih (List.forall_mem_cons.mp hin).2
  | fragment hmeans location hrest ih =>
    intro ordinal hin
    obtain ⟨hchildren, hin⟩ := List.forall_mem_append.mp hin
    rw [outlineAll, Node.outline, fragmentTokens_fragment, hmeans.implicitToken_eq hchildren]
    exact congrArg _ (ih hin)

/-- What is found by rendering are the tokens of a level, under every signature. -/
theorem levelTokens_fragmentTokens (hs : s.Chooses (p.axes rules)) : ∀ (ns : List Node)
    (id ordinal : Nat), (∀ q ∈ constructsAll (outlineAll id ordinal ns), q ∈ p.placed) →
      LevelTokens s (p.axes rules) id ns
        (fragmentTokens (s.valueFor (p.axes rules)) (outlineAll id ordinal ns))
  | [], id, _, _ => .nil id
  | .construct c :: ns, _, ordinal, hin =>
    .construct c (levelTokens_fragmentTokens hs ns _ ordinal (List.forall_mem_cons.mp hin).2)
  | .fragment children location :: ns, _, _, hin => by
    obtain ⟨hchildren, hin⟩ := List.forall_mem_append.mp hin
    exact .fragment (means_renderAll hs children .tokenName _ _ hchildren) location
      (levelTokens_fragmentTokens hs ns _ _ hin)

/-- **The tokens of a level are those found by rendering** what the level is numbered to. -/
theorem Phrase.levelTokens_iff (hs : s.Chooses (p.axes rules)) {id ordinal : Nat} {ns : List Node}
    (hlevel : outlineAll id ordinal ns ∈ p.levels) {tokens : List TokenName} :
    LevelTokens s (p.axes rules) id ns tokens ↔
      fragmentTokens (s.valueFor (p.axes rules)) (outlineAll id ordinal ns) = tokens := by
  have hin : ∀ q ∈ constructsAll (outlineAll id ordinal ns), q ∈ p.placed :=
    fun q hq => Phrase.placed_of_mem_levels hlevel hq
  constructor
  · intro h
    exact h.fragmentTokens_eq hin
  · rintro rfl
    exact levelTokens_fragmentTokens hs ns id ordinal hin

end Tokens

/-! ### Levels of nodes and levels of the outline -/

theorem exists_mem_of_forall₂ {α β : Type} {R : α → β → Prop} {as : List α} {bs : List β}
    (h : List.Forall₂ R as bs) {a : α} (ha : a ∈ as) : ∃ b ∈ bs, R a b := by
  induction h with
  | nil => cases ha
  | cons hab hrest ih =>
    rcases List.mem_cons.mp ha with rfl | ha
    · exact ⟨_, List.mem_cons_self, hab⟩
    · obtain ⟨b, hb, hr⟩ := ih ha
      exact ⟨b, List.mem_cons_of_mem _ hb, hr⟩

namespace Phrase

variable {p : Phrase}

/-- Every level of a phrase is numbered to one of the outline. -/
theorem exists_outline_mem_levels {l : Nat × List Node} (h : l ∈ p.nodeLevels) :
    ∃ ordinal, outlineAll l.1 ordinal l.2 ∈ p.levels := by
  obtain ⟨_, hlevel, ordinal, rfl⟩ := exists_mem_of_forall₂ p.forall₂_nodeLevels h
  exact ⟨ordinal, hlevel⟩

/-- Every level of the outline is what one of the phrase is numbered to. -/
theorem exists_mem_nodeLevels {level : List Outline} (h : level ∈ p.levels) :
    ∃ l ∈ p.nodeLevels, ∃ ordinal, level = outlineAll l.1 ordinal l.2 :=
  exists_mem_of_forall₂ p.forall₂_nodeLevels.flip h

/-- What stands before a fragment on its level, and what stands in it, stands in the phrase. -/
theorem placed_of_fragment_mem_levels {before children after : List Outline} {id ordinal : Nat}
    {location : Location}
    (h : before ++ .fragment id ordinal location children :: after ∈ p.levels) :
    (∀ q ∈ constructsAll before, q ∈ p.placed) ∧ ∀ q ∈ constructsAll children, q ∈ p.placed := by
  have hin : ∀ q ∈ constructsAll (before ++ .fragment id ordinal location children :: after),
      q ∈ p.placed := fun q hq => placed_of_mem_levels h hq
  rw [constructsAll_append] at hin
  obtain ⟨hbefore, hrest⟩ := List.forall_mem_append.mp hin
  exact ⟨hbefore, (List.forall_mem_append.mp hrest).1⟩

end Phrase

/-- A fragment on a level of the outline is a fragment that was numbered, and what stands before
it was numbered before it. -/
theorem exists_of_outlineAll_eq_append {ns : List Node} {id ordinal : Nat}
    {before children after : List Outline} {i o : Nat} {location : Location}
    (h : outlineAll id ordinal ns = before ++ .fragment i o location children :: after) :
    ∃ ms inner rest, ns = ms ++ .fragment inner location :: rest ∧
      before = outlineAll id ordinal ms ∧
      ∃ ordinal', children = outlineAll (id + sizeAll ms + 1) ordinal' inner := by
  induction before generalizing ns id ordinal with
  | nil =>
    rcases ns with _ | ⟨c | ⟨inner, location'⟩, ns⟩
    · cases h
    · cases (List.cons.inj h).1
    · obtain ⟨-, -, rfl, rfl⟩ := Outline.fragment.inj (List.cons.inj h).1
      exact ⟨[], inner, ns, rfl, rfl, ordinal + 1, rfl⟩
  | cons b before ih =>
    rcases ns with _ | ⟨n, ns⟩
    · cases h
    · obtain ⟨rfl, hrest⟩ := List.cons.inj h
      obtain ⟨ms, inner, rest, rfl, rfl, ordinal', rfl⟩ := ih hrest
      refine ⟨n :: ms, inner, rest, rfl, rfl, ordinal', ?_⟩
      rw [sizeAll, Nat.add_assoc id]

end Phrasebook
