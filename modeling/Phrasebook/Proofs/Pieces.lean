import Phrasebook.Rendering

/-!
# The pieces of a text

The text of a level is put together from what its nodes show: **words**, and
**placeholders** of tokens, which runtime values fill. The pieces of a text say which of
the two each part of it is (`Phrasebook.textOf_pieces`). From the text alone that cannot
be told, since braces may also stand among the words.

A construct shows no token but the one it declares, or the one it refers back to; and a
plural does so in its plural wording only
(`Phrasebook.Construct.token?_of_placeholder_mem`). A fragment shows its own.
-/

namespace Phrasebook

/-- A part of a text. -/
inductive Piece where
  | words (text : String)
  /-- What a runtime value fills. -/
  | placeholder (token : TokenName)
deriving DecidableEq

/-- A piece as it is written. -/
def Piece.text : Piece → String
  | words text => text
  | placeholder token => "\x7b" ++ token.text ++ "\x7d"

@[simp] theorem Piece.text_words (text : String) : (words text).text = text := rfl

/-- A placeholder is written as tokens are shown. -/
@[simp] theorem Piece.text_placeholder (token : TokenName) :
    (placeholder token).text = token.placeholder := rfl

/-- The text that some pieces make. -/
def textOf (pieces : List Piece) : String :=
  String.join (pieces.map Piece.text)

@[simp] theorem textOf_nil : textOf [] = "" := rfl

@[simp] theorem textOf_cons (piece : Piece) (pieces : List Piece) :
    textOf (piece :: pieces) = piece.text ++ textOf pieces :=
  String.join_cons

theorem textOf_append (xs ys : List Piece) : textOf (xs ++ ys) = textOf xs ++ textOf ys := by
  rw [textOf, textOf, textOf, List.map_append, String.join_append]

/-! ### What nodes show -/

/-- The pieces of a plural, in its singular or its plural wording. -/
def Plural.pieces (p : Plural) (singular : Bool) : List Piece :=
  if singular then [.words (if p.showCount = .yes then "1 " ++ p.singular else p.singular)]
  else
    match p.shownToken? with
    | some token => [.placeholder token, .words (" " ++ p.manyWording)]
    | none => [.words p.manyWording]

/-- The pieces of a construct, if `value` is what its axis takes. -/
def Construct.pieces (value : Option AxisValue) : Construct → List Piece
  | .param p => [.placeholder p.name]
  | .name n => [.placeholder n.name]
  | .sameParam s => [.placeholder s.name]
  | .plural p => p.pieces (value = some .exactlyOne)
  | .text t => [.words t.value]
  | .enumeration e => [.words ((Construct.enumeration e).render .leaf value)]
  | .pronoun p => [.words ((Construct.pronoun p).render .leaf value)]

/-- The pieces of a node in the text of its level. -/
def Outline.pieces (values : Assignment) : Outline → List Piece
  | .construct id c => c.pieces (values id)
  | .fragment _ _ _ children => [.placeholder (implicitToken values children)]

theorem Plural.textOf_pieces (p : Plural) (singular : Bool) :
    textOf (p.pieces singular) = p.render .leaf singular := by
  cases singular <;> rcases hs : p.showCount with _ | _ | _ <;>
    simp [Plural.pieces, Plural.render, Plural.shownToken?, hs, Mode.token, String.append_assoc]

/-- **The pieces of a construct make its wording.** -/
theorem Construct.textOf_pieces (c : Construct) (value : Option AxisValue) :
    textOf (c.pieces value) = c.render .leaf value := by
  cases c with
  | plural p => exact p.textOf_pieces _
  | _ => simp [Construct.pieces, Construct.render, Mode.token]

theorem Outline.textOf_pieces (o : Outline) (values : Assignment) :
    textOf (o.pieces values) = o.render values .leaf := by
  cases o with
  | construct id c =>
    rw [Outline.pieces, Outline.render]
    exact c.textOf_pieces (values id)
  | fragment id ordinal location children =>
    simp [Outline.pieces, Outline.render, Mode.showsToken, implicitToken]

/-- **The pieces of the nodes of a level make its text.** -/
theorem textOf_pieces (level : List Outline) (values : Assignment) :
    textOf (level.flatMap (Outline.pieces values)) = renderAll values .leaf level := by
  induction level with
  | nil => simp [renderAll]
  | cons o level ih =>
    rw [List.flatMap_cons, textOf_append, Outline.textOf_pieces, ih, renderAll]

/-! ### Whose tokens are shown -/

/-- A node **refers back** if it shows a token that it does not declare. -/
def Outline.refersBack : Outline → Bool
  | .construct _ (.sameParam _) => true
  | .construct _ _ | .fragment _ _ _ _ => false

theorem Outline.exists_sameParam {o : Outline} (h : o.refersBack = true) :
    ∃ id s, o = .construct id (.sameParam s) := by
  cases o with
  | construct id c => cases c <;> simp [Outline.refersBack] at h ⊢
  | fragment id ordinal location children => simp [Outline.refersBack] at h

theorem Plural.shownToken?_of_placeholder_mem {p : Plural} {singular : Bool} {t : TokenName}
    (h : .placeholder t ∈ p.pieces singular) : p.shownToken? = some t := by
  rw [Plural.pieces] at h
  split at h
  · simp at h
  · split at h
    · rename_i token htoken
      obtain rfl : t = token := by simpa using h
      exact htoken
    · simp at h

/-- **A construct shows the token it declares**, unless it refers back. -/
theorem Construct.token?_of_placeholder_mem {c : Construct} {value : Option AxisValue}
    {t : TokenName} (h : .placeholder t ∈ c.pieces value) (hback : ∀ s, c ≠ .sameParam s) :
    c.token? = some t := by
  cases c with
  | param p =>
    obtain rfl : t = p.name := by simpa [Construct.pieces] using h
    rfl
  | name n =>
    obtain rfl : t = n.name := by simpa [Construct.pieces] using h
    rfl
  | plural p => exact Plural.shownToken?_of_placeholder_mem h
  | sameParam s => exact absurd rfl (hback s)
  | _ => simp [Construct.pieces] at h

end Phrasebook
